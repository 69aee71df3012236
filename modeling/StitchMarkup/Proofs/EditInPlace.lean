import StitchMarkup.Document.InPlace
import StitchMarkup.Proofs.Relexing

/-!
Edits made in place are edits. The splice of the array would fail at any range the check lets
through by mistake, and so would the difference that gives the end of the new lines. Neither does,
and what is left is the edit of the document: an exact splice, or a refusal that leaves everything
as it was.
-/

namespace StitchMarkup

/-- A splice needs exactly what the check of an edit makes sure of. -/
theorem Checked.splice_eq_ok_iff {α : Type} {start stop : Nat} {fresh items result : List α} :
    splice start stop fresh items = .ok result ↔
      (start ≤ stop ∧ stop ≤ items.length) ∧
        items.take start ++ (fresh ++ items.drop stop) = result := by
  by_cases hstart : start ≤ stop
  · by_cases hstop : stop ≤ items.length
    · rw [splice, sub_of_le hstart, ok_bind, sub_of_le hstop, ok_bind, pure_eq_ok, Except.ok.injEq,
        and_iff_right ⟨hstart, hstop⟩]
    · rw [splice, sub_of_le hstart, ok_bind, sub, if_neg hstop]
      exact iff_of_false (fun h => nomatch h) fun h => hstop h.1.2
  · rw [splice, sub, if_neg hstart]
    exact iff_of_false (fun h => nomatch h) fun h => hstart h.1.1

namespace Walk

/-- The walk that lexed other lines before. -/
def after (pass : Pass) (walk : Walk) : Walk :=
  { walk with
    lines := pass.lines ++ walk.lines
    count := pass.lines.length + walk.count
    decisions := pass.decisions ++ walk.decisions }

variable {tabWidth inserted index : Nat}

/-- New lines are lexed whatever they would start in. -/
theorem along_fresh (ctx : Context) (texts : List String) (lines : List Line)
    (hinserted : inserted = index + texts.length) :
    along tabWidth inserted index ctx (texts.map Line.unlexed ++ lines) =
      (along tabWidth inserted inserted (Pass.lex tabWidth ctx texts).next lines).after
        (Pass.lex tabWidth ctx texts) := by
  induction texts generalizing ctx index with
  | nil =>
      subst hinserted
      simp [Pass.lex, Pass.nothing, after]
  | cons text texts ih =>
      rw [List.length_cons] at hinserted
      -- There are texts left before the end of the new lines, so the walk cannot stop here.
      have hnew : ¬ (inserted ≤ index ∧ (Line.unlexed text).start = ctx) := by omega
      have hnext : inserted = index + 1 + texts.length := by omega
      have hlater := ih (ctx.lexLine tabWidth text.toList).next hnext
      rw [List.map_cons, List.cons_append, along, if_neg hnew]
      simp only [Line.unlexed] at hlater ⊢
      simp only [hlater, Pass.lex, Pass.cons, after, List.cons_append, List.length_cons,
        List.append_assoc, Nat.add_right_comm]

/-- Old lines are lexed up to the first one that can be kept. -/
theorem along_stale (ctx : Context) (lines : List Line) (hindex : inserted ≤ index) :
    along tabWidth inserted index ctx lines =
      let (stale, kept) := Pass.relex tabWidth ctx lines
      ⟨stale.lines ++ kept, stale.lines.length, stale.decisions,
        if kept.isEmpty then none else some (index + stale.lines.length), stale.next⟩ := by
  induction lines generalizing ctx index with
  | nil => rfl
  | cons line lines ih =>
      by_cases hstart : line.start = ctx
      · rw [along, if_pos ⟨hindex, hstart⟩, Pass.relex, if_pos hstart]
        rfl
      · have hnext : inserted ≤ index + 1 := Nat.le_succ_of_le hindex
        have hlater := ih (ctx.lexLine tabWidth line.text.toList).next hnext
        rw [along, if_neg (hstart ·.2), Pass.relex, if_neg hstart]
        simp only [hlater, Pass.cons, List.cons_append, List.length_cons, Nat.add_assoc,
          Nat.add_comm 1]

/-- New lines with old ones after them, as an edit leaves them to be lexed. -/
theorem along_spliced (ctx : Context) (texts : List String) (lines : List Line) :
    along tabWidth (index + texts.length) index ctx (texts.map Line.unlexed ++ lines) =
      let fresh := Pass.lex tabWidth ctx texts
      let (stale, kept) := Pass.relex tabWidth fresh.next lines
      let count := fresh.lines.length + stale.lines.length
      ⟨fresh.lines ++ (stale.lines ++ kept), count, fresh.decisions ++ stale.decisions,
        if kept.isEmpty then none else some (index + count), stale.next⟩ := by
  have hlength : (Pass.lex tabWidth ctx texts).lines.length = texts.length := by
    have htexts := Pass.lex_texts tabWidth ctx texts
    rw [← List.length_map, htexts]
  rw [along_fresh ctx texts lines rfl, along_stale _ lines (Nat.le_refl _)]
  simp only [after, hlength, Nat.add_assoc]

end Walk

namespace Document

/-- The edit of an old document put its new lines in place of the range and did nothing else to
the lines. -/
structure Splices (edited old : Document) (request : Replacement) : Prop where
  lineCount : edited.lineCount =
    old.lineCount - (request.stop - request.start) + request.texts.length
  before : ∀ index < request.start, edited.line? index = old.line? index
  inserted : ∀ index, request.start ≤ index → index < request.start + request.texts.length →
    edited.line? index = request.texts[index - request.start]?
  after : ∀ index, request.start + request.texts.length ≤ index →
    edited.line? index =
      old.line? (index - request.texts.length + (request.stop - request.start))

variable {doc : Document} {request : Replacement} {limit : Nat}

theorem line?_eq (doc : Document) (index : Nat) : doc.line? index = doc.texts[index]? :=
  List.getElem?_map.symm

theorem isSome_contextBefore?_iff (doc : Document) (index : Nat) :
    (doc.contextBefore? index).isSome ↔ index ≤ doc.lineCount := by
  unfold contextBefore? lineCount
  split
  · next hend => simp [hend]
  · next hinside =>
      rw [Option.isSome_map, isSome_getElem?]
      omega

theorem isSome_line?_iff (doc : Document) (index : Nat) :
    (doc.line? index).isSome ↔ index < doc.lineCount := by
  rw [line?, Option.isSome_map, isSome_getElem?, lineCount]

theorem isSome_tokens?_iff (doc : Document) (index : Nat) :
    (doc.tokens? index).isSome ↔ index < doc.lineCount := by
  rw [tokens?, Option.isSome_map, isSome_getElem?, lineCount]

/-- The context to take up lexing in, looked up in the array. -/
theorem resume_eq (doc : Document) (index : Nat) :
    (doc.lines[index]?.map Line.start).getD doc.final =
      (doc.contextBefore? index).getD doc.final := by
  unfold contextBefore?
  split
  · next hend =>
      have hnone : doc.lines[index]? = none := List.getElem?_eq_none (Nat.le_of_eq hend.symm)
      rw [hnone]
      rfl
  · rfl

/-- What a host holds after the response. -/
theorem document_respond (doc : Document) (request : Replacement) :
    (doc.respond request).document = doc.afterEdit request := by
  unfold respond afterEdit
  cases doc.replace request.start request.stop request.texts <;> rfl

theorem respond_of_invalid (h : request.stop < request.start ∨ doc.lineCount < request.stop) :
    doc.respond request =
      ⟨doc, .error (.invalidRange request.start request.stop doc.lineCount), []⟩ := by
  have hrange : ¬ (request.start ≤ request.stop ∧ request.stop ≤ doc.lineCount) := by omega
  rw [respond, replace, if_neg hrange]

theorem respondInPlace_of_invalid
    (h : request.stop < request.start ∨ doc.lineCount < request.stop) :
    doc.respondInPlace limit request = .ok (doc.respond request) := by
  rw [respondInPlace, if_pos h, respond_of_invalid h]
  rfl

variable (hstart : request.start ≤ request.stop) (hstop : request.stop ≤ doc.lineCount)

include hstart hstop

theorem respond_splices :
    ∃ count, (doc.respond request).answer = .ok count ∧
      (doc.respond request).document.Splices doc request := by
  obtain ⟨edit, fresh, stale, old, kept, hedit, h⟩ := replace_rebuilds hstart hstop request.texts
  have hbegin : request.start ≤ doc.lineCount := Nat.le_trans hstart hstop
  have htexts : request.start ≤ doc.texts.length := by
    rw [texts, List.length_map]
    exact hbegin
  have hlength : (doc.texts.take request.start).length = request.start :=
    List.length_take_of_le htexts
  have hlines := h.lineCount_eq hstop
  have hedited := h.lineCount_edited hbegin
  rw [respond, hedit]
  refine ⟨edit.count, rfl, ?_, ?_, ?_, ?_⟩
  · show edit.document.lineCount = _
    omega
  · intro index hindex
    rw [line?_eq, line?_eq, h.texts_eq, List.append_assoc, List.getElem?_append_left (by omega),
      List.getElem?_take_of_lt hindex]
  · intro index hfirst hlast
    rw [line?_eq, h.texts_eq, List.append_assoc, List.getElem?_append_right (by omega),
      List.getElem?_append_left (by omega), hlength]
  · intro index hindex
    rw [line?_eq, line?_eq, h.texts_eq, List.append_assoc, List.getElem?_append_right (by omega),
      List.getElem?_append_right (by omega), List.getElem?_drop, hlength]
    congr 1
    omega

/-- The splice leaves the lines before the range and after it, and the room for the number of
lines before and after the edit is room for the sum from which the end of the new lines is
found. -/
theorem respondInPlace_of_valid (hbefore : 2 * doc.lineCount ≤ limit)
    (hafter : 2 * (doc.lineCount - (request.stop - request.start) + request.texts.length) ≤ limit) :
    doc.respondInPlace limit request = .ok (doc.respond request) := by
  have hvalid : ¬ (request.stop < request.start ∨ doc.lineCount < request.stop) := by omega
  have hbegin : request.start ≤ doc.lines.length := Nat.le_trans hstart hstop
  have hprefix : (doc.lines.take request.start).length = request.start :=
    List.length_take_of_le hbegin
  have hsplice : Checked.splice request.start request.stop (request.texts.map Line.unlexed)
      doc.lines = .ok (doc.lines.take request.start ++
        (request.texts.map Line.unlexed ++ doc.lines.drop request.stop)) :=
    Checked.splice_eq_ok_iff.mpr ⟨⟨hstart, hstop⟩, rfl⟩
  -- The sum is the old number of lines more than the end of the new ones, so it is safe to take
  -- that number off again.
  have hcount : (doc.lines.take request.start ++ (request.texts.map Line.unlexed ++
      doc.lines.drop request.stop)).length + request.stop =
        doc.lineCount + (request.start + request.texts.length) := by
    simp only [List.length_append, hprefix, List.length_map, List.length_drop]
    unfold lineCount at hstop ⊢
    omega
  have hrange : request.start ≤ request.stop ∧ request.stop ≤ doc.lineCount := ⟨hstart, hstop⟩
  rw [respondInPlace, if_neg hvalid, hsplice, Checked.ok_bind, Checked.add_of_le (by omega),
    Checked.ok_bind, hcount, Checked.sub_of_le (by omega), Checked.ok_bind,
    Nat.add_sub_cancel_left, List.drop_left' hprefix, List.take_left' hprefix, resume_eq,
    Walk.along_spliced, respond, replace, if_pos hrange]
  cases hrelex : Pass.relex doc.settings.tabWidth (Pass.lex doc.settings.tabWidth
      ((doc.contextBefore? request.start).getD doc.final) request.texts).next
      (doc.lines.drop request.stop) with
  | mk stale kept =>
      simp only [hrelex, List.append_assoc, Checked.pure_eq_ok]
      cases kept <;> rfl

end Document

/-- An edit is an exact splice of the lines or it is refused, and it is refused where its range is
reversed or reaches past the last line, and nowhere else. A refusal changes nothing and leaves no
trace in the log. A host that splices its lines in place and counts them in bounded numbers gets
the same answer without a fault, as long as it has room for twice the lines it stores. -/
theorem replace_splices_or_refuses (doc : Document) (request : Replacement) :
    let response := doc.respond request
    let refusal := EditError.invalidRange request.start request.stop doc.lineCount
    let edited := response.document
    edited = doc.afterEdit request ∧
      (response.answer = .error refusal ↔
        request.stop < request.start ∨ doc.lineCount < request.stop) ∧
      (response.answer = .error refusal → response = ⟨doc, .error refusal, []⟩) ∧
      (response.answer ≠ .error refusal →
        ∃ count, response.answer = .ok count ∧ edited.Splices doc request) ∧
      (∀ index, (edited.contextBefore? index).isSome ↔ index ≤ edited.lineCount) ∧
      (∀ index, (edited.line? index).isSome ↔ index < edited.lineCount) ∧
      (∀ index, (edited.tokens? index).isSome ↔ index < edited.lineCount) ∧
      ∀ limit, 2 * doc.lineCount ≤ limit → 2 * edited.lineCount ≤ limit →
        doc.respondInPlace limit request = .ok response := by
  intro response refusal edited
  have hedited : edited = doc.afterEdit request := doc.document_respond request
  have hbefore := edited.isSome_contextBefore?_iff
  have hline := edited.isSome_line?_iff
  have htokens := edited.isSome_tokens?_iff
  by_cases hinvalid : request.stop < request.start ∨ doc.lineCount < request.stop
  · have hresponse : response = ⟨doc, .error refusal, []⟩ := Document.respond_of_invalid hinvalid
    have hanswer : response.answer = .error refusal := by rw [hresponse]
    refine ⟨hedited, iff_of_true hanswer hinvalid, fun _ => hresponse, (absurd hanswer ·),
      hbefore, hline, htokens, ?_⟩
    intro limit _ _
    exact Document.respondInPlace_of_invalid hinvalid
  · have hstart : request.start ≤ request.stop := by omega
    have hstop : request.stop ≤ doc.lineCount := by omega
    obtain ⟨count, hcount, hsplices⟩ := Document.respond_splices hstart hstop
    have hanswer : response.answer ≠ .error refusal := by
      rw [hcount]
      exact fun h => nomatch h
    refine ⟨hedited, iff_of_false hanswer hinvalid, (absurd · hanswer),
      fun _ => ⟨count, hcount, hsplices⟩, hbefore, hline, htokens, ?_⟩
    intro limit hold hnew
    rw [hsplices.lineCount] at hnew
    exact Document.respondInPlace_of_valid hstart hstop hold hnew

/-- The last of two lines is replaced by three, with room for the four lines that makes. -/
theorem replace_splices_or_refuses_tight :
    let doc := (Document.load {} "a \x7b-\nb").document
    let request : Replacement := ⟨1, 2, ["-\x7d", "\x7b-", ""]⟩
    (2 * doc.lineCount ≤ 8 ∧ 2 * (doc.respond request).document.lineCount ≤ 8) ∧
      doc.respondInPlace 8 request = .ok (doc.respond request) :=
  ⟨by decide, (replace_splices_or_refuses (Document.load {} "a \x7b-\nb").document
    ⟨1, 2, ["-\x7d", "\x7b-", ""]⟩).2.2.2.2.2.2.2 8 (by decide) (by decide)⟩

end StitchMarkup
