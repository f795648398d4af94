import ScriptReader.Proofs.ReadingBack
import ScriptReader.Proofs.SpacedLexemes

/-!
# Round trip

The trees that scripts have are the well-formed ones.  To find a script of a well-formed tree,
write the lexemes of its tokens with single spaces between them: whatever lexemes are taken,
the script is parsed as that tree, with a limit of nesting that is no less than the number of
lexemes.

Main statements:

* `parse_intercalate`: the lexemes of a well-formed tree are parsed as the tree;
* `parse_image_roundTrip`: the trees of scripts, and how to come back to each.
-/

namespace ScriptReader

open Phrase

theorem Program.WellFormed.exists_lexemes {p : Program} (h : p.WellFormed) :
    ∃ texts, Lexemes p.contents texts := by
  refine ScriptReader.exists_lexemes ?_
  intro c hc
  exact Content.spelled_iff.mpr (h.writable c hc)

/-- The lexemes of a well-formed program with single spaces between them are parsed as the
program, the places of its nodes apart. -/
theorem parse_intercalate {p : Program} {texts : List String} {limit : Int} (h : p.WellFormed)
    (htexts : Lexemes p.contents texts) (hpos : 1 ≤ limit)
    (hlimit : (texts.length : Int) ≤ limit) :
    ∃ q, parse (" ".intercalate texts) limit = .ok q ∧ q.erase = p.erase := by
  obtain ⟨ts, e, htok, hts, -⟩ := tokenizes_intercalate htexts .start
  obtain ⟨q, hq, he⟩ := h.exists_script hts
  have hlen : ts.length = texts.length := by
    rw [← htexts.length_eq, ← hts, List.length_map]
  obtain ⟨hplace, hfits⟩ := (script_iff (d := limit.toNat) (by omega)).mp hq
  exact ⟨q, parse_ok_iff.mpr ⟨hpos, ts, e, tokenize_ok_iff.mpr htok, hplace, hfits⟩, he⟩

/-- A tree is that of a script, the places of its nodes apart, if and only if it is well formed.
Then its tokens can be spelled, and any spelling of them, with single spaces in between, is
parsed as the tree with any limit from the number of the tokens on. -/
theorem parse_image_roundTrip (p : Program) :
    ((∃ source limit q, parse source limit = .ok q ∧ q.erase = p.erase) ↔ p.WellFormed) ∧
      (p.WellFormed → (∃ texts, Lexemes p.contents texts) ∧
        ∀ texts, Lexemes p.contents texts → ∀ limit : Int, 1 ≤ limit →
          (texts.length : Int) ≤ limit →
            ∃ q, parse (" ".intercalate texts) limit = .ok q ∧ q.erase = p.erase) := by
  refine ⟨⟨?_, ?_⟩, ?_⟩
  · rintro ⟨source, limit, q, hq, he⟩
    exact (wellFormed_of_parse hq).of_erase_eq he
  · intro h
    obtain ⟨texts, htexts⟩ := h.exists_lexemes
    obtain ⟨q, hq, he⟩ := parse_intercalate h htexts
      (show (1 : Int) ≤ texts.length + 1 by omega) (by omega)
    exact ⟨_, _, q, hq, he⟩
  · intro h
    refine ⟨h.exists_lexemes, ?_⟩
    intro texts htexts limit hpos hlimit
    exact parse_intercalate h htexts hpos hlimit

/-- The change of `x` by minus one, written out, comes back as it was. -/
theorem parse_image_roundTrip_update :
    ∃ q, parse "x += -1 ;" 4 = .ok q ∧
      q.erase = Program.erase ⟨⟨1, 1⟩, [.update ⟨1, 1⟩ "x" .plus (.int ⟨1, 6⟩ (-1))]⟩ := by
  have hamount : (Expr.int ⟨1, 6⟩ (-1)).WellFormed :=
    .leaf (show leastInt ≤ -1 ∧ -1 ≤ greatestInt by decide) rfl
  have hname : IsName "x" := ⟨⟨'x', [], rfl, by decide, by simp⟩, by decide⟩
  have h : Program.WellFormed ⟨⟨1, 1⟩, [.update ⟨1, 1⟩ "x" .plus (.int ⟨1, 6⟩ (-1))]⟩ := by
    refine List.forall_mem_singleton.mpr (.node ⟨hname, by decide⟩ ?_ nofun)
    exact List.forall_mem_singleton.mpr hamount
  have htexts : Lexemes [.ident "x", Symbol.plusAssign.content, .int (-1),
      Symbol.semicolon.content] ["x", "+=", "-1", ";"] := by
    refine .cons ?_ (.cons (.symbol .plusAssign) (.cons ?_ (.cons (.symbol .semicolon) .nil)))
    · exact .word (by decide) (by simp)
    · exact .integer true (.singleton (by decide))
  exact ((parse_image_roundTrip _).2 h).2 _ htexts 4 (by decide) (by decide)

end ScriptReader
