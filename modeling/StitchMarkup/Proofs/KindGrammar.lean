import Mathlib.Computability.RegularExpressions
import StitchMarkup.Line

/-!
A grammar for the kinds on a line, as a regular expression. Comments may stand anywhere and are
left out of it. The head of a line decides which kinds may follow, and an expectation that is
pending inside a line stands for the rest of a line that is still allowed.
-/

namespace StitchMarkup

namespace KindGrammar

open RegularExpression

def oneOf (kinds : List TokenKind) : RegularExpression TokenKind :=
  (kinds.map char).sum

def prose : RegularExpression TokenKind := star (oneOf [.plain])

/-- A stitch, whose name may be missing, and prose after it. -/
def stitch : RegularExpression TokenKind := oneOf [.stitchName, .error] * prose

def entry : RegularExpression TokenKind := oneOf [.label, .number, .word, .string, .error]

/-- The entries of a list of properties, which an arrow may end. -/
def properties : RegularExpression TokenKind :=
  star entry * (1 + char .arrow + char .arrow * stitch)

/-- The kinds on a line, comments left out. -/
def line : RegularExpression TokenKind :=
  prose + char .error * prose + char .tag * properties + char .header + char .header * stitch +
    char .header * (oneOf [.label, .error] * properties)

/-- What the rest of a line may still hold where an expectation is pending. -/
def remaining : Option Expectation → RegularExpression TokenKind
  | none => prose
  | some .stitchName | some .arrowTarget => 1 + stitch
  | some .properties => properties
  | some .stringTail => star (oneOf [.error])

variable {kind : TokenKind} {kinds word : List TokenKind} {rest : RegularExpression TokenKind}

theorem mem_oneOf : word ∈ (oneOf kinds).matches' ↔ ∃ kind ∈ kinds, word = [kind] := by
  induction kinds with
  | nil => simp [oneOf, RegularExpression.matches'_zero]
  | cons kind kinds ih =>
      have hsum : (oneOf (kind :: kinds)).matches' =
          (char kind).matches' + (oneOf kinds).matches' := rfl
      rw [hsum, Language.mem_add, ih, RegularExpression.matches'_char]
      simp only [List.mem_cons, exists_eq_or_imp]
      rfl

theorem mem_char_mul :
    word ∈ (char kind * rest).matches' ↔ ∃ later ∈ rest.matches', word = kind :: later := by
  rw [RegularExpression.matches'_mul, Language.mem_mul]
  constructor
  · rintro ⟨first, hfirst, later, hlater, rfl⟩
    have hkind : first = [kind] := hfirst
    subst hkind
    exact ⟨later, hlater, rfl⟩
  · rintro ⟨later, hlater, rfl⟩
    exact ⟨[kind], rfl, later, hlater, rfl⟩

theorem mem_oneOf_mul :
    word ∈ (oneOf kinds * rest).matches' ↔
      ∃ kind ∈ kinds, ∃ later ∈ rest.matches', word = kind :: later := by
  rw [RegularExpression.matches'_mul, Language.mem_mul]
  constructor
  · rintro ⟨first, hfirst, later, hlater, rfl⟩
    obtain ⟨kind, hkind, rfl⟩ := mem_oneOf.mp hfirst
    exact ⟨kind, hkind, later, hlater, rfl⟩
  · rintro ⟨kind, hkind, later, hlater, rfl⟩
    exact ⟨[kind], mem_oneOf.mpr ⟨kind, hkind, rfl⟩, later, hlater, rfl⟩

theorem mem_star_oneOf :
    word ∈ (star (oneOf kinds)).matches' ↔ ∀ kind ∈ word, kind ∈ kinds := by
  rw [RegularExpression.matches'_star, Language.mem_kstar]
  constructor
  · rintro ⟨words, rfl, hwords⟩ kind hkind
    obtain ⟨single, hsingle, hmem⟩ := List.mem_flatten.mp hkind
    obtain ⟨other, hother, rfl⟩ := mem_oneOf.mp (hwords single hsingle)
    rw [List.mem_singleton.mp hmem]
    exact hother
  · intro hword
    refine ⟨word.map fun kind => [kind], by simp [← List.flatMap_def], ?_⟩
    intro single hsingle
    obtain ⟨kind, hkind, rfl⟩ := List.mem_map.mp hsingle
    exact mem_oneOf.mpr ⟨kind, hword kind hkind, rfl⟩

theorem mem_properties :
    word ∈ properties.matches' ↔
      ∃ entries last, word = entries ++ last ∧
        (∀ kind ∈ entries, kind ∈ [.label, .number, .word, .string, .error]) ∧
        (last = [] ∨ last = [.arrow] ∨ ∃ later ∈ stitch.matches', last = .arrow :: later) := by
  rw [properties, RegularExpression.matches'_mul, Language.mem_mul]
  constructor
  · rintro ⟨entries, hentries, last, hlast, rfl⟩
    refine ⟨entries, last, rfl, mem_star_oneOf.mp hentries, ?_⟩
    rcases hlast with (hnil | harrow) | htarget
    · exact Or.inl hnil
    · exact Or.inr (Or.inl harrow)
    · exact Or.inr (Or.inr (mem_char_mul.mp htarget))
  · rintro ⟨entries, last, rfl, hentries, hlast⟩
    refine ⟨entries, mem_star_oneOf.mpr hentries, last, ?_, rfl⟩
    rcases hlast with hnil | harrow | htarget
    · exact Or.inl (Or.inl hnil)
    · exact Or.inl (Or.inr harrow)
    · exact Or.inr (mem_char_mul.mpr htarget)

theorem mem_line :
    word ∈ line.matches' ↔
      word ∈ prose.matches' ∨ (∃ later ∈ prose.matches', word = .error :: later) ∨
        (∃ later ∈ properties.matches', word = .tag :: later) ∨ word = [.header] ∨
        (∃ later ∈ stitch.matches', word = .header :: later) ∨
        ∃ later ∈ (oneOf [.label, .error] * properties).matches', word = .header :: later := by
  have hheader : word ∈ (char TokenKind.header).matches' ↔ word = [.header] := Iff.rfl
  simp only [line, RegularExpression.matches'_add, Language.mem_add, mem_char_mul, hheader,
    or_assoc]

theorem header_mem_line : [.header] ∈ line.matches' :=
  mem_line.mpr (Or.inr (Or.inr (Or.inr (Or.inl rfl))))

/-- A header may announce a list, if a label comes first in it or what should have been one. -/
theorem header_cons_mem_line (h : word ∈ (oneOf [.label, .error] * properties).matches') :
    .header :: word ∈ line.matches' :=
  mem_line.mpr (Or.inr (Or.inr (Or.inr (Or.inr (Or.inr ⟨word, h, rfl⟩)))))

theorem nil_mem_remaining (expectation : Option Expectation) :
    [] ∈ (remaining expectation).matches' := by
  have hnil (kinds : List TokenKind) : [] ∈ (star (oneOf kinds)).matches' :=
    mem_star_oneOf.mpr (by simp)
  cases expectation with
  | none => exact hnil [.plain]
  | some expectation =>
      cases expectation with
      | stitchName => exact Or.inl rfl
      | arrowTarget => exact Or.inl rfl
      | properties => exact mem_properties.mpr ⟨[], [], rfl, by simp, Or.inl rfl⟩
      | stringTail => exact hnil [.error]

theorem cons_mem_prose (h : word ∈ prose.matches') : .plain :: word ∈ prose.matches' := by
  rw [prose, mem_star_oneOf] at h ⊢
  simpa using h

theorem cons_mem_stitch (hkind : kind ∈ [TokenKind.stitchName, .error])
    (hword : word ∈ prose.matches') : kind :: word ∈ stitch.matches' :=
  mem_oneOf_mul.mpr ⟨kind, hkind, word, hword, rfl⟩

theorem cons_mem_properties (hkind : kind ∈ [TokenKind.label, .number, .word, .string, .error])
    (hword : word ∈ properties.matches') : kind :: word ∈ properties.matches' := by
  obtain ⟨entries, last, rfl, hentries, hlast⟩ := mem_properties.mp hword
  refine mem_properties.mpr ⟨kind :: entries, last, rfl, ?_, hlast⟩
  intro other hother
  rcases List.mem_cons.mp hother with rfl | htail
  · exact hkind
  · exact hentries other htail

/-- Whatever an entry of a list leaves to come may follow it. -/
theorem cons_tokenKind_mem_properties {entry : PropertyKind} (hentry : entry ≠ .exhausted)
    (hword : word ∈ (remaining entry.expects).matches') :
    entry.tokenKind :: word ∈ properties.matches' := by
  cases entry with
  | exhausted => exact absurd rfl hentry
  | arrow =>
      refine mem_properties.mpr ⟨[], .arrow :: word, rfl, by simp, Or.inr ?_⟩
      rcases hword with hnil | hstitch
      · have hempty : word = [] := hnil
        exact Or.inl (by rw [hempty])
      · exact Or.inr ⟨word, hstitch, rfl⟩
  | unterminatedString =>
      have herrors := mem_star_oneOf.mp hword
      refine mem_properties.mpr ⟨.error :: word, [], by simp [PropertyKind.tokenKind], ?_,
        Or.inl rfl⟩
      intro kind hkind
      rcases List.mem_cons.mp hkind with rfl | htail
      · simp
      · simp [List.mem_singleton.mp (herrors kind htail)]
  | label => exact cons_mem_properties (by simp [PropertyKind.tokenKind]) hword
  | integer => exact cons_mem_properties (by simp [PropertyKind.tokenKind]) hword
  | bareword => exact cons_mem_properties (by simp [PropertyKind.tokenKind]) hword
  | string => exact cons_mem_properties (by simp [PropertyKind.tokenKind]) hword
  | malformed => exact cons_mem_properties (by simp [PropertyKind.tokenKind]) hword

/-- Which kind may stand before which, however far apart. -/
def MayPrecede (earlier later : TokenKind) : Prop :=
  later ≠ .header ∧ later ≠ .tag ∧ (earlier = .arrow → later ≠ .arrow) ∧
    (earlier = .stitchName → later = .plain)

instance : DecidableRel MayPrecede := fun earlier later =>
  inferInstanceAs (Decidable (later ≠ .header ∧ later ≠ .tag ∧
    (earlier = .arrow → later ≠ .arrow) ∧ (earlier = .stitchName → later = .plain)))

theorem mayPrecede_plain (kind : TokenKind) : MayPrecede kind .plain := by
  cases kind <;> decide

theorem eq_plain_of_mem_prose (h : word ∈ prose.matches') : ∀ kind ∈ word, kind = .plain :=
  fun kind hkind => List.mem_singleton.mp (mem_star_oneOf.mp h kind hkind)

theorem mem_of_mem_stitch (h : word ∈ stitch.matches') :
    ∀ kind ∈ word, kind ∈ [TokenKind.stitchName, .error, .plain] := by
  obtain ⟨first, hfirst, later, hlater, rfl⟩ := mem_oneOf_mul.mp h
  intro kind hkind
  rcases List.mem_cons.mp hkind with rfl | htail
  · exact List.mem_append_left [.plain] hfirst
  · rw [eq_plain_of_mem_prose hlater kind htail]
    decide

theorem mem_of_mem_properties (h : word ∈ properties.matches') :
    ∀ kind ∈ word, kind ∈ [TokenKind.label, .number, .word, .string, .error, .arrow,
      .stitchName, .plain] := by
  have hsubset : ∀ kind ∈ [TokenKind.stitchName, .error, .plain],
      kind ∈ [TokenKind.label, .number, .word, .string, .error, .arrow, .stitchName, .plain] := by
    decide
  obtain ⟨entries, last, rfl, hentries, hlast⟩ := mem_properties.mp h
  intro kind hkind
  rcases List.mem_append.mp hkind with hentry | hend
  · exact List.mem_append_left [.arrow, .stitchName, .plain] (hentries kind hentry)
  · rcases hlast with rfl | rfl | ⟨later, hlater, rfl⟩
    · exact absurd hend List.not_mem_nil
    · rw [List.mem_singleton.mp hend]
      decide
    · rcases List.mem_cons.mp hend with rfl | htail
      · decide
      · exact hsubset kind (mem_of_mem_stitch hlater kind htail)

theorem pairwise_of_mem_prose (h : word ∈ prose.matches') : word.Pairwise MayPrecede := by
  apply List.pairwise_of_forall_mem_list
  intro earlier _ later hlater
  rw [eq_plain_of_mem_prose h later hlater]
  exact mayPrecede_plain earlier

theorem pairwise_of_mem_stitch (h : word ∈ stitch.matches') : word.Pairwise MayPrecede := by
  obtain ⟨kind, _, later, hlater, rfl⟩ := mem_oneOf_mul.mp h
  refine List.pairwise_cons.mpr ⟨?_, pairwise_of_mem_prose hlater⟩
  intro other hother
  rw [eq_plain_of_mem_prose hlater other hother]
  exact mayPrecede_plain kind

theorem pairwise_of_mem_properties (h : word ∈ properties.matches') :
    word.Pairwise MayPrecede := by
  have hentry : ∀ earlier ∈ [TokenKind.label, .number, .word, .string, .error],
      ∀ later ∈ [TokenKind.label, .number, .word, .string, .error, .arrow, .stitchName, .plain],
        MayPrecede earlier later := by decide
  have harrow : ∀ later ∈ [TokenKind.stitchName, .error, .plain], MayPrecede .arrow later := by
    decide
  have hkinds := mem_of_mem_properties h
  obtain ⟨entries, last, rfl, hentries, hlast⟩ := mem_properties.mp h
  refine List.pairwise_append.mpr ⟨?_, ?_, ?_⟩
  · apply List.pairwise_of_forall_mem_list
    intro earlier hearlier later hlater
    exact hentry earlier (hentries earlier hearlier) later
      (hkinds later (List.mem_append_left last hlater))
  · rcases hlast with rfl | rfl | ⟨later, hlater, rfl⟩
    · exact List.Pairwise.nil
    · exact List.pairwise_singleton MayPrecede .arrow
    · refine List.pairwise_cons.mpr ⟨?_, pairwise_of_mem_stitch hlater⟩
      exact fun other hother => harrow other (mem_of_mem_stitch hlater other hother)
  · intro earlier hearlier later hlater
    exact hentry earlier (hentries earlier hearlier) later
      (hkinds later (List.mem_append_right entries hlater))

/-- The order of kinds that all six forms of a line keep. -/
theorem pairwise_of_mem_line (h : word ∈ line.matches') : word.Pairwise MayPrecede := by
  have hlead : ∀ lead ∈ [TokenKind.header, .tag],
      ∀ later ∈ [TokenKind.label, .number, .word, .string, .error, .arrow, .stitchName, .plain],
        MayPrecede lead later := by decide
  have hstitch : ∀ later ∈ [TokenKind.stitchName, .error, .plain],
      MayPrecede .header later := by decide
  have hfirst : ∀ kind ∈ [TokenKind.label, .error],
      kind ∈ [TokenKind.label, .number, .word, .string, .error] := by decide
  rcases mem_line.mp h with hprose | ⟨later, hlater, rfl⟩ | ⟨later, hlater, rfl⟩ | rfl |
      ⟨later, hlater, rfl⟩ | ⟨later, hlater, rfl⟩
  · exact pairwise_of_mem_prose hprose
  · refine List.pairwise_cons.mpr ⟨?_, pairwise_of_mem_prose hlater⟩
    intro other hother
    rw [eq_plain_of_mem_prose hlater other hother]
    exact mayPrecede_plain .error
  · refine List.pairwise_cons.mpr ⟨?_, pairwise_of_mem_properties hlater⟩
    exact fun other hother => hlead .tag (by simp) other (mem_of_mem_properties hlater other hother)
  · exact List.pairwise_singleton MayPrecede .header
  · refine List.pairwise_cons.mpr ⟨?_, pairwise_of_mem_stitch hlater⟩
    exact fun other hother => hstitch other (mem_of_mem_stitch hlater other hother)
  · obtain ⟨kind, hkind, entries, hentries, rfl⟩ := mem_oneOf_mul.mp hlater
    have hlist := cons_mem_properties (hfirst kind hkind) hentries
    refine List.pairwise_cons.mpr ⟨?_, pairwise_of_mem_properties hlist⟩
    exact fun other hother =>
      hlead .header (by simp) other (mem_of_mem_properties hlist other hother)

end KindGrammar

end StitchMarkup
