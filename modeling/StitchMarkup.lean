import StitchMarkup.Main
import StitchMarkup.Proofs.CommentDepth
import StitchMarkup.Proofs.CommentTrees
import StitchMarkup.Proofs.DepthBound
import StitchMarkup.Proofs.EditInPlace
import StitchMarkup.Proofs.LineBreaks
import StitchMarkup.Proofs.Lookahead
import StitchMarkup.Proofs.Painting
import StitchMarkup.Proofs.PropertyOrder
import StitchMarkup.Proofs.Recognition
import StitchMarkup.Proofs.RoundTrip
import StitchMarkup.Proofs.TabStops
