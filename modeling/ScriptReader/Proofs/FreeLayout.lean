import ScriptReader.Proofs.ParsedScripts
import ScriptReader.Proofs.SpacedLexemes

/-!
# Free layout

Where a lexeme ends does not depend on the gap behind it, and what it says does not depend on where
it stands.  So lexemes can be laid out freely: whatever blanks and comments stand between them,
they are read as they are read one at a time.

A text that is one token by itself is spelled by a rule of the lexicon, and so are the lexemes of
the tokens of a script.  Such lexemes between gaps are cut up into themselves.

Main statement: `tokenize_layOut`.
-/

namespace ScriptReader

/-! ## Single lexemes -/

theorem Tokenizes.lexemes {p : Position} {cs : List Char} {tokens : List Token}
    {failure : Option Error} (h : Tokenizes p cs tokens failure) (hf : failure = none) :
    Lexemes (tokens.dropLast.map Token.content) (tokens.dropLast.map Token.lexeme) := by
  induction h with
  | finish _ => exact .nil
  | @token p gap t rest content ts failure _ hm later ih =>
    obtain ⟨us, e, rfl, -⟩ := later.exists_append_end hf
    rw [← List.cons_append, List.dropLast_concat]
    rw [List.dropLast_concat] at ih
    refine .cons ?_ (ih hf)
    rw [String.toList_ofList]
    exact hm.spells
  | malformed _ _ => cases hf
  | unrecognized _ _ => cases hf

/-- Alone, the text is read as the one token `t`, and all of the text is its lexeme. -/
def ReadAlone (s : String) (t : Token) : Prop :=
  ∃ e, tokenize s = .ok [t, e] ∧ t.lexeme = s

theorem ReadAlone.spells {s : String} {t : Token} (h : ReadAlone s t) :
    Spells s.toList (.ok t.content) := by
  obtain ⟨e, htok, rfl⟩ := h
  cases (tokenize_ok_iff.mp htok).lexemes rfl with
  | cons hs _ => exact hs

theorem Spells.tokenize_eq {t : List Char} {content : Content} (h : Spells t (.ok content)) :
    tokenize (String.ofList t) =
      .ok [⟨content, .start, String.ofList t⟩, .endAt (.after .start t)] := by
  have hgap : LongestGap [] (t ++ []) := h.longestGap_nil nofun
  have hend : Tokenizes (.after .start t) [] _ none := .finish (longestGap_iff.mpr rfl)
  have htok := Tokenizes.token (p := .start) hgap (h.longestMatch nofun) hend
  rw [tokenize_ok_iff, String.toList_ofList]
  rwa [List.append_nil, List.nil_append] at htok

theorem lexemes_of_readAlone {texts : List String} {lone : List Token}
    (h : List.Forall₂ ReadAlone texts lone) : Lexemes (lone.map Token.content) texts := by
  induction h with
  | nil => exact .nil
  | cons ht _ ih => exact .cons ht.spells ih

/-! ## Lexemes laid out -/

theorem tokenize_of_lexemes {source : String} {cs : List Content} {texts : List String}
    (h : ∃ ts e, Tokenizes .start source.toList (ts ++ [e]) none ∧ ts.map Token.content = cs ∧
      ts.map Token.lexeme = texts) :
    ∃ ts e, tokenize source = .ok (ts ++ [e]) ∧ e.isEnd = true ∧ ts.map Token.content = cs ∧
      ts.map Token.lexeme = texts := by
  obtain ⟨ts, e, htok, hcs, htexts⟩ := h
  obtain ⟨us, e', heq, hend, -⟩ := htok.exists_append_end rfl
  obtain ⟨-, he⟩ := List.append_inj' heq rfl
  obtain rfl := List.singleton_inj.mp he
  exact ⟨ts, e, tokenize_ok_iff.mpr htok, hend, hcs, htexts⟩

/-- Texts that are each one token alone, laid out with gaps around them, are read as these tokens,
whatever the gaps are made of.  So the lexemes of a script with single spaces between them are read
as the tokens of the script.  Only the positions differ. -/
theorem tokenize_layOut :
    (∀ (gaps : List (List Char)) (texts : List String) (lone : List Token), GapsAround gaps →
      gaps.length = texts.length + 1 → List.Forall₂ ReadAlone texts lone →
        ∃ ts e, tokenize (String.ofList (layOut gaps texts)) = .ok (ts ++ [e]) ∧ e.isEnd = true ∧
          ts.map Token.content = lone.map Token.content ∧ ts.map Token.lexeme = texts) ∧
    ∀ (source : String) (ts : List Token) (e : Token), tokenize source = .ok (ts ++ [e]) →
      ∃ us e', tokenize (" ".intercalate (ts.map Token.lexeme)) = .ok (us ++ [e']) ∧
        e'.isEnd = true ∧ us.map Token.content = ts.map Token.content ∧
        us.map Token.lexeme = ts.map Token.lexeme := by
  constructor
  · intro gaps texts lone hgaps hlen hlone
    have htok := tokenizes_layOut (lexemes_of_readAlone hlone) hgaps hlen .start
    rw [← String.toList_ofList (l := layOut gaps texts)] at htok
    exact tokenize_of_lexemes htok
  · intro source ts e h
    have hlexemes := (tokenize_ok_iff.mp h).lexemes rfl
    rw [List.dropLast_concat] at hlexemes
    exact tokenize_of_lexemes (tokenizes_intercalate hlexemes .start)

/-- A slash and a number with comments around them, and an assignment without a space. -/
theorem tokenize_layOut_comments :
    let gaps : List (List Char) := [['/', '/', '\n'], [' ', '/', '/', '/', '\n'], [' ', '/', '/']]
    let lone : List Token := [⟨.symbol .divide "/", .start, "/"⟩, ⟨.int (-1), .start, "-1"⟩]
    let sum : List Token := [⟨.ident "x", ⟨1, 1, 0⟩, "x"⟩,
      ⟨.symbol .plusAssign "+=", ⟨1, 2, 1⟩, "+="⟩, ⟨.int (-1), ⟨1, 4, 3⟩, "-1"⟩]
    GapsAround gaps ∧ List.Forall₂ ReadAlone ["/", "-1"] lone ∧
      (∃ ts e, tokenize "//\n/ ///\n-1 //" = .ok (ts ++ [e]) ∧ e.isEnd = true ∧
        ts.map Token.content = lone.map Token.content ∧ ts.map Token.lexeme = ["/", "-1"]) ∧
      tokenize "x+=-1" = .ok (sum ++ [.endAt ⟨1, 6, 5⟩]) ∧
      ∃ us e, tokenize "x += -1" = .ok (us ++ [e]) ∧ e.isEnd = true ∧
        us.map Token.content = sum.map Token.content ∧
        us.map Token.lexeme = sum.map Token.lexeme := by
  intro gaps lone sum
  have hspace : ClosedGap [' '] := .blank rfl .nil
  have hopen : LastGap ([' '] ++ '/' :: '/' :: []) := .comment hspace List.not_mem_nil
  have hslash : ClosedGap ('/' :: '/' :: ['/'] ++ '\n' :: []) := .comment (by decide) .nil
  have hinner : ClosedGap [' ', '/', '/', '/', '\n'] := .blank rfl hslash
  have hfirst : ClosedGap ('/' :: '/' :: [] ++ '\n' :: []) := .comment List.not_mem_nil .nil
  have hgaps : GapsAround gaps :=
    .cons hfirst (.cons hinner ⟨_, _, rfl, rfl⟩ (.last hopen fun _ => ⟨_, _, rfl, rfl⟩))
  have hlone : List.Forall₂ ReadAlone ["/", "-1"] lone :=
    .cons ⟨.endAt ⟨1, 2, 1⟩, by decide +kernel, rfl⟩
      (.cons ⟨.endAt ⟨1, 3, 2⟩, by decide +kernel, rfl⟩ .nil)
  have hread : tokenize "x+=-1" = .ok (sum ++ [.endAt ⟨1, 6, 5⟩]) := by decide +kernel
  have hsource : String.ofList (layOut gaps ["/", "-1"]) = "//\n/ ///\n-1 //" := by decide +kernel
  have hspaces : " ".intercalate (sum.map Token.lexeme) = "x += -1" := by decide +kernel
  have hout := tokenize_layOut.1 gaps _ lone hgaps rfl hlone
  have hout' := tokenize_layOut.2 _ sum _ hread
  rw [hsource] at hout
  rw [hspaces] at hout'
  exact ⟨hgaps, hlone, hout, hread, hout'⟩

end ScriptReader
