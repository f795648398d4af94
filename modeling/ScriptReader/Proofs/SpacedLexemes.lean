import ScriptReader.Proofs.MaximalMunch

/-!
# Lexemes between gaps

A text that is spelled by a rule of the lexicon is the longest match where a blank or nothing
stands behind it: only a text in quotes or a character can hold a blank, and then the quotes
are not closed in front of it.  So lexemes that are laid out with gaps between them are cut up into
these lexemes again.

A gap between two lexemes must begin with a blank.  It may hold comments behind the blank, but two
slashes right behind a lexeme need not begin one: behind the symbol `/` they are read as a comment
that holds the last of the three.

Main statements:

* `Spells.longestMatch`: the longest match in front of a blank;
* `tokenizes_layOut`: the tokens of lexemes between gaps;
* `tokenizes_intercalate`: the tokens of lexemes between spaces.
-/

namespace ScriptReader

/-! ## The first character of a lexeme -/

/-- The first character of a lexeme tells its rule, and between quotes what it ends with. -/
theorem Spells.head_cases {c : Char} {cs : List Char} {o : Except Fault Content}
    (h : Spells (c :: cs) o) :
    isIdentStart c = true ∨ c.isDigit = true ∨ (c = '-' ∧ cs ≠ []) ∨
      (c = '"' ∧ ∃ body, cs = body ++ ['"']) ∨ (c = '\'' ∧ ∃ d, cs = [d, '\'']) ∨
      ∃ s : Symbol, s.chars = c :: cs := by
  generalize hu : c :: cs = u at h
  cases h with
  | word hc _ =>
    cases hu
    exact Or.inl hc
  | integer negative hds =>
    obtain ⟨d, more, rfl, hd⟩ := hds.exists_cons
    cases negative with
    | false =>
      cases hu
      exact Or.inr (Or.inl hd)
    | true =>
      cases hu
      exact Or.inr (Or.inr (Or.inl ⟨rfl, List.cons_ne_nil d more⟩))
  | decimal hw _ =>
    obtain ⟨d, more, rfl, hd⟩ := hw.exists_cons
    cases hu
    exact Or.inr (Or.inl hd)
  | @string body _ =>
    cases hu
    exact Or.inr (Or.inr (Or.inr (Or.inl ⟨rfl, body, rfl⟩)))
  | @char d _ =>
    cases hu
    exact Or.inr (Or.inr (Or.inr (Or.inr (Or.inl ⟨rfl, d, rfl⟩))))
  | symbol s => exact Or.inr (Or.inr (Or.inr (Or.inr (Or.inr ⟨s, rfl⟩))))

theorem Spells.exists_closing_quote {cs : List Char} {o : Except Fault Content}
    (h : Spells ('"' :: cs) o) : ∃ body, cs = body ++ ['"'] := by
  rcases h.head_cases with h | h | ⟨h, -⟩ | ⟨-, h⟩ | ⟨h, -⟩ | ⟨s, hs⟩
  · cases h
  · cases h
  · cases h
  · exact h
  · cases h
  · cases s <;> cases hs

theorem Spells.exists_closing_apostrophe {cs : List Char} {o : Except Fault Content}
    (h : Spells ('\'' :: cs) o) : ∃ d, cs = [d, '\''] := by
  rcases h.head_cases with h | h | ⟨h, -⟩ | ⟨h, -⟩ | ⟨-, h⟩ | ⟨s, hs⟩
  · cases h
  · cases h
  · cases h
  · cases h
  · exact h
  · cases s <;> cases hs

/-! ## Blanks behind a lexeme -/

theorem isBlank_eq_false {c : Char} (h : isIdentStart c = true ∨ c.isDigit = true) :
    isBlank c = false := by
  by_contra hb
  simp only [isBlank, Bool.not_eq_false, Bool.or_eq_true, beq_iff_eq] at hb
  rcases hb with ((((rfl | rfl) | rfl) | rfl) | rfl) | rfl <;> rcases h with h | h <;> cases h

theorem Symbol.isBlank_eq_false (s : Symbol) : ∀ c ∈ s.chars, isBlank c = false := by
  have h : s.chars.all (!isBlank ·) = true := by cases s <;> rfl
  simpa using h

/-- No lexeme is another one with a blank behind it and perhaps more. -/
theorem Spells.not_append_of_blank {t w : List Char} {c : Char} {o r : Except Fault Content}
    (h : Spells t o) (hc : isBlank c = true) (hm : c ∈ w) : ¬ Spells (t ++ w) r := by
  intro hu
  obtain ⟨a, t, rfl⟩ := List.exists_cons_of_ne_nil h.ne_nil
  generalize hw : a :: t ++ w = u at hu
  have hcu : c ∈ u := by
    rw [← hw]
    exact List.mem_append_right _ hm
  have hnot : ∀ {b : Char}, isBlank b = false → c ≠ b := by
    rintro b hb rfl
    rw [hc] at hb
    cases hb
  have hdigit : ∀ {ds : List Char}, Digits ds → c ∉ ds :=
    fun hds hmem => hnot (isBlank_eq_false (Or.inr (hds.2 c hmem))) rfl
  cases hu with
  | @word b cs hb hcs =>
    rcases List.mem_cons.mp hcu with rfl | hmem
    · exact hnot (isBlank_eq_false (Or.inl hb)) rfl
    · exact hnot (isBlank_eq_false (Bool.or_eq_true_iff.mp (hcs c hmem))) rfl
  | integer negative hds =>
    rcases List.mem_append.mp hcu with hmem | hmem
    · cases negative with
      | false => cases hmem
      | true => exact hnot rfl (List.mem_singleton.mp hmem)
    · exact hdigit hds hmem
  | decimal hwhole hp =>
    rcases List.mem_append.mp hcu with hmem | hmem
    · exact hdigit hwhole hmem
    · rcases List.mem_cons.mp hmem with hmem | hmem
      · exact hnot rfl hmem
      · exact hdigit hp hmem
  | @string cs hcs =>
    -- the quote that closes the first lexeme stands inside the second one
    obtain ⟨rfl, hcons⟩ := List.cons.inj hw
    obtain ⟨body, rfl⟩ := h.exists_closing_quote
    obtain rfl | ⟨front, last, rfl⟩ := List.eq_nil_or_concat' w
    · cases hm
    · have happ : body ++ ['"'] ++ front ++ [last] = cs ++ ['"'] := by
        rw [List.append_assoc]
        exact hcons
      obtain ⟨rfl, -⟩ := List.append_inj' happ rfl
      exact hcs (by simp)
  | @char d hd =>
    obtain ⟨rfl, hcons⟩ := List.cons.inj hw
    obtain ⟨e, rfl⟩ := h.exists_closing_apostrophe
    cases w with
    | nil => cases hm
    | cons b w => cases hcons
  | symbol s => exact hnot (s.isBlank_eq_false c hcu) rfl

/-- In front of a blank, or of nothing, a lexeme is the longest match. -/
theorem Spells.longestMatch {t rest : List Char} {o : Except Fault Content} (h : Spells t o)
    (hr : Ends (!isBlank ·) rest) : LongestMatch t o rest := by
  refine ⟨h, ?_⟩
  intro u r hu hpre
  by_contra hlt
  have ht : t <+: t ++ rest := List.prefix_append t rest
  obtain ⟨v, rfl⟩ := List.prefix_of_prefix_length_le ht hpre (by omega)
  cases v with
  | nil => simp at hlt
  | cons c v =>
    obtain ⟨w, rfl⟩ := (List.prefix_append_right_inj t).mp hpre
    have hc : isBlank c = true := by simpa using hr c _ rfl
    exact h.not_append_of_blank hc List.mem_cons_self hu

/-! ## Gaps in front of a lexeme -/

/-- A lexeme begins with no blank, and with no comment if a blank stands behind it. -/
theorem Spells.longestGap_nil {t rest : List Char} {o : Except Fault Content} (h : Spells t o)
    (hr : Ends (!isBlank ·) rest) : LongestGap [] (t ++ rest) := by
  obtain ⟨c, t, rfl⟩ := List.exists_cons_of_ne_nil h.ne_nil
  refine longestGap_iff.mpr ?_
  rcases h.head_cases with h | h | ⟨rfl, -⟩ | ⟨rfl, -⟩ | ⟨rfl, -⟩ | ⟨s, hs⟩
  · refine splitGap_nil (isBlank_eq_false (Or.inl h)) ?_
    rintro rfl
    cases h
  · refine splitGap_nil (isBlank_eq_false (Or.inr h)) ?_
    rintro rfl
    cases h
  · exact splitGap_nil rfl nofun
  · exact splitGap_nil rfl nofun
  · exact splitGap_nil rfl nofun
  · refine splitGap_nil ?_ ?_
    · cases s <;> cases hs <;> rfl
    · rintro rfl more hmore
      obtain rfl | ⟨d, rfl, hd⟩ : t = [] ∨ ∃ d, t = [d] ∧ d ≠ '/' := by
        cases s <;> cases hs <;> simp
      · cases hr '/' more hmore
      · cases hmore
        exact hd rfl

theorem Skips.longestGap {gap rest : List Char} (h : Skips gap rest) (hr : LongestGap [] rest) :
    LongestGap gap rest := by
  have hrest := longestGap_iff.mp hr
  rw [List.nil_append] at hrest
  refine longestGap_iff.mpr ?_
  rw [h.splitGap_eq, hrest, List.append_nil]

/-! ## Gaps that end by themselves -/

/-- Blanks and comments, each comment with the newline that ends it. -/
inductive ClosedGap : List Char → Prop
  | nil : ClosedGap []
  | blank {c : Char} {gap : List Char} (hc : isBlank c = true) (h : ClosedGap gap) :
      ClosedGap (c :: gap)
  | comment {body gap : List Char} (hb : '\n' ∉ body) (h : ClosedGap gap) :
      ClosedGap ('/' :: '/' :: body ++ '\n' :: gap)

/-- Blanks and comments, of which the last one may still be open. -/
inductive LastGap : List Char → Prop
  | closed {gap : List Char} (h : ClosedGap gap) : LastGap gap
  | comment {gap body : List Char} (h : ClosedGap gap) (hb : '\n' ∉ body) :
      LastGap (gap ++ '/' :: '/' :: body)

/-- A closed gap can be skipped whatever follows, and so can what can be skipped behind it. -/
theorem ClosedGap.skips_append {gap more rest : List Char} (h : ClosedGap gap)
    (hm : Skips more rest) : Skips (gap ++ more) rest := by
  induction h with
  | nil => exact hm
  | blank hc _ ih => exact .blank hc ih
  | @comment body gap hb _ ih =>
    have hnewline : Skips ('\n' :: (gap ++ more)) rest := .blank rfl ih
    have hend : Ends (· != '\n') ('\n' :: (gap ++ more) ++ rest) := by
      rintro c _ he
      cases he
      rfl
    have hcomment := Skips.comment hb hend hnewline
    rwa [List.append_assoc]

theorem ClosedGap.skips {gap : List Char} (h : ClosedGap gap) (rest : List Char) :
    Skips gap rest := by
  have hnil : Skips [] rest := .nil
  have hskips := h.skips_append hnil
  rwa [List.append_nil] at hskips

theorem LastGap.skips {gap : List Char} (h : LastGap gap) : Skips gap [] := by
  cases h with
  | closed h => exact h.skips []
  | @comment gap body h hb =>
    have hcomment : Skips ('/' :: '/' :: body ++ []) [] := .comment hb nofun .nil
    rw [List.append_nil] at hcomment
    exact h.skips_append hcomment

/-! ## Lexemes between gaps -/

/-- The texts are lexemes that say the contents, one after the other. -/
def Lexemes (cs : List Content) (texts : List String) : Prop :=
  List.Forall₂ (fun c s => Spells s.toList (.ok c)) cs texts

theorem exists_lexemes {cs : List Content} (h : ∀ c ∈ cs, ∃ t, Spells t (.ok c)) :
    ∃ texts, Lexemes cs texts := by
  induction cs with
  | nil => exact ⟨[], .nil⟩
  | cons c cs ih =>
    obtain ⟨⟨t, ht⟩, hcs⟩ := List.forall_mem_cons.mp h
    obtain ⟨texts, htexts⟩ := ih hcs
    refine ⟨String.ofList t :: texts, .cons ?_ htexts⟩
    rw [String.toList_ofList]
    exact ht

/-- Gaps and texts in turn, beginning with a gap. -/
def layOut : (gaps : List (List Char)) → (texts : List String) → List Char
  | gap :: gaps, s :: texts => gap ++ (s.toList ++ layOut gaps texts)
  | gaps, _ => gaps.flatten

/-- The gap begins with a blank. -/
def BeginsBlank (gap : List Char) : Prop :=
  ∃ c more, gap = c :: more ∧ isBlank c = true

/-- The gaps behind a text: each begins with a blank and is closed, but the last one may be left
open, and may be empty. -/
inductive GapsBehind : List (List Char) → Prop
  | last {gap : List Char} (hg : LastGap gap) (hb : gap ≠ [] → BeginsBlank gap) : GapsBehind [gap]
  | cons {gap : List Char} {gaps : List (List Char)} (hg : ClosedGap gap) (hb : BeginsBlank gap)
      (h : GapsBehind gaps) : GapsBehind (gap :: gaps)

/-- The gaps around some texts: the first one need not begin with a blank, and is closed if it is
not the only one. -/
inductive GapsAround : List (List Char) → Prop
  | only {gap : List Char} (hg : LastGap gap) : GapsAround [gap]
  | cons {gap : List Char} {gaps : List (List Char)} (hg : ClosedGap gap) (h : GapsBehind gaps) :
      GapsAround (gap :: gaps)

theorem GapsBehind.around {gaps : List (List Char)} (h : GapsBehind gaps) : GapsAround gaps := by
  cases h with
  | last hg _ => exact .only hg
  | cons hg _ h => exact .cons hg h

theorem GapsBehind.length_pos {gaps : List (List Char)} (h : GapsBehind gaps) :
    0 < gaps.length := by
  cases h <;> exact Nat.succ_pos _

theorem BeginsBlank.ends {gap : List Char} (h : BeginsBlank gap) (more : List Char) :
    Ends (!isBlank ·) (gap ++ more) := by
  obtain ⟨c, rest, rfl, hc⟩ := h
  rintro d _ he
  cases he
  simp [hc]

theorem GapsBehind.ends {gaps : List (List Char)} {texts : List String} (h : GapsBehind gaps)
    (hlen : gaps.length = texts.length + 1) : Ends (!isBlank ·) (layOut gaps texts) := by
  cases h with
  | @last gap _ hb =>
    obtain rfl : texts = [] := List.length_eq_zero_iff.mp (by simpa using hlen)
    by_cases hgap : gap = []
    · subst hgap
      nofun
    · exact (hb hgap).ends []
  | @cons gap gaps _ hb h =>
    cases texts with
    | nil => exact hb.ends gaps.flatten
    | cons s texts => exact hb.ends _

/-- Lexemes between gaps are the lexemes of the text that they make up. -/
theorem tokenizes_layOut {cs : List Content} {texts : List String} {gaps : List (List Char)}
    (h : Lexemes cs texts) (hg : GapsAround gaps) (hlen : gaps.length = texts.length + 1)
    (p : Position) :
    ∃ ts e, Tokenizes p (layOut gaps texts) (ts ++ [e]) none ∧ ts.map Token.content = cs ∧
      ts.map Token.lexeme = texts := by
  induction h generalizing gaps p with
  | nil =>
    cases hg with
    | @only gap hg =>
      have hgap : layOut [gap] [] = gap := List.append_nil gap
      rw [hgap]
      exact ⟨[], _, .finish (hg.skips.longestGap (longestGap_iff.mpr rfl)), rfl, rfl⟩
    | cons _ hbehind =>
      have hpos := hbehind.length_pos
      rw [List.length_cons, List.length_nil] at hlen
      omega
  | @cons c s cs texts hs _ ih =>
    cases hg with
    | only => simp at hlen
    | @cons gap gaps hg hbehind =>
      have hlen' : gaps.length = texts.length + 1 := by simpa using hlen
      have hends := hbehind.ends hlen'
      have hgap := (hg.skips _).longestGap (hs.longestGap_nil hends)
      obtain ⟨ts, e, htok, hcs, htexts⟩ := ih hbehind.around hlen' ((p.after gap).after s.toList)
      refine ⟨⟨c, _, _⟩ :: ts, e, .token hgap (hs.longestMatch hends) htok, ?_, ?_⟩
      · rw [List.map_cons, hcs]
      · rw [List.map_cons, htexts, String.ofList_toList]

/-! ## Lexemes between spaces -/

/-- Single spaces behind all texts but the last. -/
def spaces (texts : List String) : List (List Char) :=
  List.replicate texts.length [' '] ++ [[]]

theorem gapsBehind_spaces (texts : List String) : GapsBehind (spaces texts) := by
  induction texts with
  | nil => exact .last (.closed .nil) (absurd rfl)
  | cons s texts ih => exact .cons (.blank rfl .nil) ⟨' ', [], rfl, rfl⟩ ih

theorem length_spaces (texts : List String) : (spaces texts).length = texts.length + 1 := by
  simp [spaces]

theorem toList_intercalate_cons (s : String) (texts : List String) :
    (" ".intercalate (s :: texts)).toList = s.toList ++ layOut (spaces texts) texts := by
  rw [String.toList_intercalate, List.map_cons]
  induction texts generalizing s with
  | nil => simp [spaces, layOut]
  | cons t texts ih =>
    rw [List.map_cons, List.intercalate_cons_cons, ih t]
    exact List.append_assoc _ _ _

/-- Lexemes with single spaces between them are the lexemes of the text that they make up. -/
theorem tokenizes_intercalate {cs : List Content} {texts : List String} (h : Lexemes cs texts)
    (p : Position) :
    ∃ ts e, Tokenizes p (" ".intercalate texts).toList (ts ++ [e]) none ∧
      ts.map Token.content = cs ∧ ts.map Token.lexeme = texts := by
  cases texts with
  | nil => exact tokenizes_layOut h (.only (.closed .nil)) rfl p
  | cons s texts =>
    have hlen : ([] :: spaces texts).length = (s :: texts).length + 1 :=
      congrArg (· + 1) (length_spaces texts)
    rw [toList_intercalate_cons]
    exact tokenizes_layOut h (.cons .nil (gapsBehind_spaces texts)) hlen p

end ScriptReader
