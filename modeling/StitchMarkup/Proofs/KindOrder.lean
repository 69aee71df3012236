import StitchMarkup.Proofs.KindGrammar
import StitchMarkup.Proofs.Stepping

/-!
The order of the kinds on a line. A step puts its own kind in front of whatever the context after
it allows, and the result is allowed by the context before it. That is all a run needs: by
induction on what is left of the line, the lexer never says more than the grammar has.
-/

namespace StitchMarkup

open KindGrammar

/-- The kinds that are no comment. -/
def spoken (kinds : List TokenKind) : List TokenKind :=
  kinds.filter (· != .comment)

@[simp] theorem spoken_cons_comment (kinds : List TokenKind) :
    spoken (.comment :: kinds) = spoken kinds := rfl

theorem spoken_cons {kind : TokenKind} (hkind : kind ≠ .comment) (kinds : List TokenKind) :
    spoken (kind :: kinds) = kind :: spoken kinds :=
  List.filter_cons_of_pos (by simpa using hkind)

/-- With the kind of a step in front, whatever its context allows to follow is allowed where the
step began. At the end of the line nothing follows. -/
def Step.Continues (expectation : Option Expectation) (step : Step) : Prop :=
  ∀ kinds, spoken kinds ∈ (remaining step.next.pending).matches' →
    (step.rest = [] → kinds = []) →
    spoken (step.kind :: kinds) ∈ (remaining expectation).matches'

namespace Step

variable {ctx : Context} {text : List Char}

/-- An expectation that could not be armed for want of text allows nothing that it would not
have allowed armed. -/
theorem mem_remaining_of_expecting {next : Option Expectation} {kinds : List TokenKind}
    (hkinds : spoken kinds ∈ (remaining (ctx.expecting next text).pending).matches')
    (hend : text = [] → kinds = []) : spoken kinds ∈ (remaining next).matches' := by
  cases text with
  | nil =>
      rw [hend rfl]
      exact nil_mem_remaining next
  | cons c rest => exact hkinds

theorem insideComment_kind (ctx : Context) (text : List Char) :
    (insideComment ctx text).kind = .comment := by
  rcases insideComment_cases ctx text with ⟨rest, _, hstep⟩ | ⟨rest, _, hstep⟩ | ⟨_, _, hstep⟩
  all_goals
    rw [hstep]
    rfl

/-- What is pending outlasts a comment. -/
theorem insideComment_pending (ctx : Context) (text : List Char) :
    (insideComment ctx text).next.pending = ctx.pending := by
  rcases insideComment_cases ctx text with ⟨rest, _, hstep⟩ | ⟨rest, _, hstep⟩ | ⟨_, _, hstep⟩
  all_goals
    rw [hstep]
    rfl

theorem insideComment_continues (ctx : Context) (text : List Char) :
    (insideComment ctx text).Continues ctx.pending := by
  intro kinds hkinds _
  rw [insideComment_pending] at hkinds
  rw [insideComment_kind, spoken_cons_comment]
  exact hkinds

theorem openComment_continues (ctx : Context) (cut : Cut) :
    (openComment ctx cut).Continues ctx.pending :=
  fun _ hkinds _ => hkinds

theorem stitch_continues (expectation : Expectation) :
    (stitch ctx.endLine expectation text).Continues (some .stitchName) := by
  intro kinds hkinds _
  unfold stitch at hkinds ⊢
  split at hkinds
  · rw [spoken_cons (by simp)]
    exact Or.inr (cons_mem_stitch (by simp) hkinds)
  · rw [spoken_cons (by simp)]
    exact Or.inr (cons_mem_stitch (by simp) hkinds)

theorem property_continues (htext : text ≠ []) :
    (property ctx.endLine text).Continues (some .properties) := by
  intro kinds hkinds hend
  have hentry : (PropertyRule.read PropertyRule.all text).1 ≠ .exhausted := by
    rcases PropertyRule.read_cases htext with ⟨kind, form, cut, hform, _, hread⟩ | ⟨_, hread⟩ |
        ⟨_, hread⟩
    · rw [hread]
      rintro rfl
      simp [PropertyRule.forms] at hform
    · simp [hread]
    · simp [hread]
  have hkind : (property ctx.endLine text).kind ≠ .comment :=
    PropertyKind.tokenKind_ne_comment _
  rw [spoken_cons hkind]
  exact cons_tokenKind_mem_properties hentry (mem_remaining_of_expecting hkinds hend)

theorem stringTail_continues :
    (stringTail ctx.endLine text).Continues (some .stringTail) := by
  intro kinds hkinds hend
  have herrors := mem_star_oneOf.mp (mem_remaining_of_expecting hkinds hend)
  apply mem_star_oneOf.mpr
  intro kind hkind
  rw [spoken_cons (by simp [stringTail])] at hkind
  rcases List.mem_cons.mp hkind with rfl | htail
  · simp [stringTail]
  · exact herrors kind htail

theorem expected_continues (expectation : Expectation) (htext : text ≠ []) :
    (expected ctx expectation text).Continues (some expectation) := by
  cases expectation with
  | stitchName => exact stitch_continues .stitchName
  | arrowTarget => exact stitch_continues .arrowTarget
  | properties => exact property_continues htext
  | stringTail => exact stringTail_continues

end Step

namespace Context

theorem step_continues (ctx : Context) {text : List Char} (htext : text ≠ []) :
    (ctx.step text).Continues ctx.pending := by
  rcases ctx.step_cases htext with ⟨_, hstep⟩ | ⟨rest, _, _, hstep⟩ |
      ⟨expectation, _, _, hpending, hstep⟩ | ⟨_, _, hpending, hstep⟩
  · rw [hstep]
    exact Step.insideComment_continues ctx text
  · rw [hstep]
    exact Step.openComment_continues ctx _
  · rw [hstep, hpending]
    exact Step.expected_continues expectation htext
  · rw [hstep, hpending]
    intro kinds hkinds _
    have hprose : spoken kinds ∈ prose.matches' := by
      rw [Step.prose, hpending] at hkinds
      exact hkinds
    exact cons_mem_prose hprose

theorem steps_kinds_of_eq_nil (ctx : Context) {text : List Char} (htext : text = []) :
    (ctx.steps text).map Step.kind = [] := by
  rw [htext, steps]
  rfl

/-- From inside a line on, what the lexer says is what the pending expectation allows. -/
theorem steps_mem_remaining (ctx : Context) (text : List Char) :
    spoken ((ctx.steps text).map Step.kind) ∈ (remaining ctx.pending).matches' := by
  induction ctx, text using Context.steps.induct with
  | case1 ctx =>
      rw [steps]
      exact nil_mem_remaining ctx.pending
  | case2 ctx c rest step ih =>
      have hnonempty : c :: rest ≠ [] := List.cons_ne_nil c rest
      rw [ctx.steps_of_ne_nil hnonempty]
      exact ctx.step_continues hnonempty _ ih (steps_kinds_of_eq_nil step.next)

/-- Where a list of properties begins with the mark of a label, a label or an error comes
first. -/
theorem steps_of_labelMark {ctx : Context} {text : List Char} (hdepth : ctx.depth = 0)
    (hpending : ctx.pending = some .properties) (hlabel : ['|', '>'] <+: text) :
    spoken ((ctx.steps text).map Step.kind) ∈
      (oneOf [.label, .error] * properties).matches' := by
  obtain ⟨rest, rfl⟩ := hlabel
  have htext : ['|', '>'] ++ rest ≠ [] := by simp
  have hopen : ¬ ['{', '-'] <+: ['|', '>'] ++ rest := by simp
  have hstep : ctx.step (['|', '>'] ++ rest) =
      Step.property ctx.endLine (['|', '>'] ++ rest) :=
    step_of_pending htext hdepth hopen hpending
  have hentry := PropertyRule.read_of_labelMark (List.prefix_append ['|', '>'] rest)
  rw [ctx.steps_of_ne_nil htext, hstep]
  have hlater := steps_mem_remaining (Step.property ctx.endLine (['|', '>'] ++ rest)).next
    (Step.property ctx.endLine (['|', '>'] ++ rest)).rest
  have hallowed := Step.mem_remaining_of_expecting hlater (steps_kinds_of_eq_nil _)
  simp only [List.map_cons, Step.property, Step.propertyBy] at hallowed ⊢
  rcases hentry with hentry | hentry
  · rw [hentry] at hallowed ⊢
    rw [spoken_cons (by simp [PropertyKind.tokenKind])]
    exact mem_oneOf_mul.mpr ⟨.label, by simp, _, hallowed, rfl⟩
  · rw [hentry] at hallowed ⊢
    rw [spoken_cons (by simp [PropertyKind.tokenKind])]
    exact mem_oneOf_mul.mpr ⟨.error, by simp, _, hallowed, rfl⟩

/-- The first step of a line in a comment, or into one, leaves nothing pending. -/
theorem firstStep_of_comment (tabWidth : Nat) {ctx : Context} {line : List Char}
    (hline : line ≠ []) (hkind : (ctx.firstStep tabWidth line).kind = .comment) :
    (ctx.firstStep tabWidth line).next.pending = none := by
  rcases ctx.firstStep_cases tabWidth hline with ⟨_, hstep⟩ | ⟨indent, rest, _, _, hstep⟩ |
      ⟨_, _, hstep⟩
  · rw [hstep]
    exact Step.insideComment_pending ctx.endLine line
  · rw [hstep]
    rfl
  · exfalso
    rw [hstep] at hkind
    rcases Step.lineHead_cases tabWidth ctx.endLine hline with ⟨_, hhead⟩ | ⟨_, hhead⟩
    · rw [hhead] at hkind
      exact LineKind.tokenKind_ne_comment _ hkind
    · rw [hhead] at hkind
      cases hkind

/-- After the head of a line comes what the line announces: nothing, a stitch, a list or prose. -/
theorem cons_head_mem_line {line : List Char} {later : List TokenKind}
    (hlater : spoken later ∈ (remaining (LineHead.read line).1.expects).matches')
    (hend : (LineHead.read line).2.rest = [] → later = [])
    (hlabel : (LineHead.read line).1.expects = some .properties →
      ['|', '>'] <+: (LineHead.read line).2.rest →
        spoken later ∈ (oneOf [.label, .error] * properties).matches') :
    (LineHead.read line).1.tokenKind :: spoken later ∈ KindGrammar.line.matches' := by
  rcases LineHead.read_cases line with ⟨cut, _, ⟨hrest, hread⟩ | ⟨hmark, hread⟩ | hread⟩ |
      ⟨indent, title, _, ⟨_, hread⟩ | ⟨before, rest, _, hmark, _, hread⟩⟩ | ⟨cut, _, hread⟩ |
      ⟨cut, _, _, hread⟩ | hread
  all_goals rw [hread] at hlater hend hlabel ⊢
  · rw [hend hrest]
    exact header_mem_line
  · exact header_cons_mem_line (hlabel rfl hmark)
  · rcases hlater with hnil | hstitch
    · have hempty : spoken later = [] := hnil
      rw [hempty]
      exact header_mem_line
    · exact mem_line.mpr (Or.inr (Or.inr (Or.inr (Or.inr (Or.inl ⟨_, hstitch, rfl⟩)))))
  · rw [hend rfl]
    exact header_mem_line
  · exact header_cons_mem_line (hlabel rfl hmark)
  · exact mem_line.mpr (Or.inr (Or.inr (Or.inl ⟨_, hlater, rfl⟩)))
  · exact mem_line.mpr (Or.inr (Or.inl ⟨_, hlater, rfl⟩))
  · exact mem_line.mpr (Or.inl (cons_mem_prose hlater))

theorem lineHead_mem_line (tabWidth : Nat) {ctx : Context} {line : List Char} (hline : line ≠ [])
    (hdepth : ctx.depth = 0) (hpending : ctx.pending = none) :
    let head := Step.lineHead tabWidth ctx line
    spoken (head.kind :: (head.next.steps head.rest).map Step.kind) ∈
      KindGrammar.line.matches' := by
  intro head
  have hlater := steps_mem_remaining head.next head.rest
  rcases Step.lineHead_cases tabWidth ctx hline with ⟨_, hhead⟩ | ⟨_, hhead⟩
  · have hnext : head.next =
        ctx.expecting (LineHead.read line).1.expects (LineHead.read line).2.rest := by
      simp only [head, hhead]
    have hrest : head.rest = (LineHead.read line).2.rest := by simp only [head, hhead]
    have hkind : head.kind = (LineHead.read line).1.tokenKind := by simp only [head, hhead]
    have hend : head.rest = [] → (head.next.steps head.rest).map Step.kind = [] :=
      steps_kinds_of_eq_nil head.next
    have hspoken : head.kind ≠ .comment := by
      rw [hkind]
      exact LineKind.tokenKind_ne_comment _
    rw [spoken_cons hspoken, hkind]
    rw [hrest] at hlater hend ⊢
    refine cons_head_mem_line ?_ hend ?_
    · rw [hnext] at hlater hend ⊢
      exact Step.mem_remaining_of_expecting hlater hend
    · intro hexpects hmark
      apply steps_of_labelMark
      · rw [hnext]
        exact hdepth
      · obtain ⟨tail, htail⟩ := hmark
        rw [hnext, hexpects, ← htail]
        rfl
      · exact hmark
  · have hkind : head.kind = .plain := by simp only [head, hhead]
    have hnext : head.next = ctx := by simp only [head, hhead]
    rw [hnext, hpending] at hlater
    rw [hkind, hnext, spoken_cons (by simp)]
    exact mem_line.mpr (Or.inl (cons_mem_prose hlater))

/-- A line says what its first step says and what the steps after it say. -/
theorem lexLine_kinds (tabWidth : Nat) (ctx : Context) {line : List Char} (hline : line ≠ []) :
    let first := ctx.firstStep tabWidth line
    (ctx.lexLine tabWidth line).pieces.map Piece.kind =
      first.kind :: (first.next.steps first.rest).map Step.kind := by
  rw [(ctx.lexLine_of_ne_nil tabWidth hline).1, List.map_cons, List.map_map]
  rfl

theorem lexLine_mem_line (tabWidth : Nat) (ctx : Context) (line : List Char) :
    spoken ((ctx.lexLine tabWidth line).pieces.map Piece.kind) ∈ KindGrammar.line.matches' := by
  by_cases hline : line = []
  · subst line
    exact mem_line.mpr (Or.inl (nil_mem_remaining none))
  have hlater := steps_mem_remaining (ctx.firstStep tabWidth line).next
    (ctx.firstStep tabWidth line).rest
  rw [ctx.lexLine_kinds tabWidth hline]
  by_cases hkind : (ctx.firstStep tabWidth line).kind = .comment
  · rw [firstStep_of_comment tabWidth hline hkind] at hlater
    rw [hkind, spoken_cons_comment]
    exact mem_line.mpr (Or.inl hlater)
  · rcases ctx.firstStep_cases tabWidth hline with ⟨_, hstep⟩ | ⟨indent, rest, _, _, hstep⟩ |
        ⟨hdepth, _, hstep⟩
    · rw [hstep] at hkind
      exact absurd (Step.insideComment_kind ctx.endLine line) hkind
    · rw [hstep] at hkind
      exact absurd rfl hkind
    · rw [hstep]
      have hhead : ctx.endLine.depth = 0 := hdepth
      exact lineHead_mem_line tabWidth hline hhead rfl

theorem lexLine_mem_prose (tabWidth : Nat) (ctx : Context) (line : List Char)
    (hcomment : 0 < ctx.depth ∨
      ((ctx.lexLine tabWidth line).pieces.map Piece.kind).head? = some .comment) :
    spoken ((ctx.lexLine tabWidth line).pieces.map Piece.kind) ∈ prose.matches' := by
  by_cases hline : line = []
  · subst line
    exact nil_mem_remaining none
  have hkinds := ctx.lexLine_kinds tabWidth hline
  have hlater := steps_mem_remaining (ctx.firstStep tabWidth line).next
    (ctx.firstStep tabWidth line).rest
  have hkind : (ctx.firstStep tabWidth line).kind = .comment := by
    rcases hcomment with hdepth | hhead
    · rcases ctx.firstStep_cases tabWidth hline with ⟨_, hstep⟩ | ⟨_, _, houtside, _, _⟩ |
          ⟨houtside, _, _⟩
      · rw [hstep]
        exact Step.insideComment_kind ctx.endLine line
      · omega
      · omega
    · rw [hkinds] at hhead
      exact Option.some.inj hhead
  rw [firstStep_of_comment tabWidth hline hkind] at hlater
  rw [hkinds, hkind, spoken_cons_comment]
  exact hlater

end Context

theorem Token.kinds_place (offset : Nat) (pieces : List Piece) :
    (Token.place offset pieces).map Token.kind = pieces.map Piece.kind := by
  induction pieces generalizing offset with
  | nil => rfl
  | cons piece pieces ih => simp only [Token.place, List.map_cons, ih]

/-- A kind that never stands before itself occurs at most once. -/
theorem count_le_one_of_pairwise {kind : TokenKind} {kinds : List TokenKind}
    (h : kinds.Pairwise fun earlier later => earlier = kind → later ≠ kind) :
    kinds.count kind ≤ 1 := by
  induction kinds with
  | nil => simp
  | cons head kinds ih =>
      obtain ⟨hhead, htail⟩ := List.pairwise_cons.mp h
      by_cases hkind : head = kind
      · have hnone : kind ∉ kinds := fun hmem => hhead kind hmem hkind rfl
        rw [hkind, List.count_cons_self, List.count_eq_zero.mpr hnone]
      · rw [List.count_cons_of_ne hkind]
        exact ih htail

/-- A header or a tag has nothing before it, not even a comment. -/
theorem not_lead_of_mem_tail {kinds : List TokenKind}
    (hgrammar : spoken kinds ∈ KindGrammar.line.matches')
    (hprose : kinds.head? = some .comment → spoken kinds ∈ prose.matches') :
    ∀ kind ∈ kinds.tail, kind ≠ .header ∧ kind ≠ .tag := by
  intro kind hkind
  by_cases hcomment : kind = .comment
  · simp [hcomment]
  cases kinds with
  | nil => cases hkind
  | cons first later =>
      by_cases hfirst : first = .comment
      · have hplain := eq_plain_of_mem_prose (hprose (by rw [hfirst]; rfl)) kind
        have hmem : kind ∈ spoken (first :: later) :=
          List.mem_filter.mpr ⟨List.mem_cons_of_mem first hkind, by simpa using hcomment⟩
        simp [hplain hmem]
      · have hmem : kind ∈ spoken later := List.mem_filter.mpr ⟨hkind, by simpa using hcomment⟩
        have horder := pairwise_of_mem_line hgrammar
        rw [spoken_cons hfirst] at horder
        have hlater := (List.pairwise_cons.mp horder).1 kind hmem
        exact ⟨hlater.1, hlater.2.1⟩

/-- The kinds of a line follow one grammar, comments left out. A line that starts in a comment,
or with one, is prose but for its comments. So a header or a tag is the first token of its line,
there is at most one arrow and at most one stitch, and what follows a stitch is prose. -/
theorem kinds_follow_grammar (tabWidth : Nat) (ctx : Context) (line : List Char) :
    let kinds := (Token.ofPieces (ctx.lexLine tabWidth line).pieces).map Token.kind
    spoken kinds ∈ KindGrammar.line.matches' ∧
      ((0 < ctx.depth ∨ kinds.head? = some .comment) → spoken kinds ∈ prose.matches') ∧
      (∀ kind ∈ kinds.tail, kind ≠ .header ∧ kind ≠ .tag) ∧
      kinds.count .arrow ≤ 1 ∧ kinds.count .stitchName ≤ 1 ∧
      kinds.Pairwise fun earlier later =>
        earlier = .stitchName → later = .plain ∨ later = .comment := by
  intro kinds
  have hkinds : kinds = (ctx.lexLine tabWidth line).pieces.map Piece.kind :=
    Token.kinds_place 0 _
  have hgrammar : spoken kinds ∈ KindGrammar.line.matches' := by
    rw [hkinds]
    exact ctx.lexLine_mem_line tabWidth line
  have hprose (hcomment : 0 < ctx.depth ∨ kinds.head? = some .comment) :
      spoken kinds ∈ prose.matches' := by
    rw [hkinds] at hcomment ⊢
    exact ctx.lexLine_mem_prose tabWidth line hcomment
  have horder := List.pairwise_filter.mp (pairwise_of_mem_line hgrammar)
  simp only [bne_iff_ne, ne_eq] at horder
  refine ⟨hgrammar, hprose, ?_, ?_, ?_, ?_⟩
  · exact not_lead_of_mem_tail hgrammar fun hcomment => hprose (Or.inr hcomment)
  · apply count_le_one_of_pairwise
    apply horder.imp
    intro earlier later hle hearlier hlater
    have hboth := hle (by simp [hearlier]) (by simp [hlater])
    exact hboth.2.2.1 hearlier hlater
  · apply count_le_one_of_pairwise
    apply horder.imp
    intro earlier later hle hearlier hlater
    have hboth := hle (by simp [hearlier]) (by simp [hlater])
    have hplain := hboth.2.2.2 hearlier
    rw [hlater] at hplain
    cases hplain
  · apply horder.imp
    intro earlier later hle hearlier
    by_cases hlater : later = .comment
    · exact Or.inr hlater
    · have hboth := hle (by simp [hearlier]) hlater
      exact Or.inl (hboth.2.2.2 hearlier)

end StitchMarkup
