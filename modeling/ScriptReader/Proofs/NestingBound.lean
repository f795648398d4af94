import Mathlib
import ScriptReader.Proofs.ParsedScripts

/-!
# What the limit of nesting bounds

Levels of nesting are counted while a script is read.  The operators of a chain hold a level
each while the operands behind them are read, but the first operand is read with none of them
held, and it ends up below all of them: its tree is deeper in the finished tree than the levels
say.  So an expression can be higher than the limit, by `height_exceeds_limit`.

How high it gets is bounded all the same: an expression that is read with `n` levels has a
height of at most `n * (n + 1) / 2`.  Each program has a least limit that it is read with, and
the limit bounds the heights of its expressions, whatever limit is given, if that one does.

Main statements:

* `Expr.height_le_triangle`: height and levels;
* `height_exceeds_limit`: a script of two levels whose expression has height three;
* `height_bounded_iff`: the least limit, what it bounds, and when it bounds the heights.
-/

namespace ScriptReader

open Phrase Grammar

/-! ## Height and levels -/

namespace Expr

theorem height_pos (e : Expr) : 0 < e.height := by
  cases e with
  | operation p l o r => exact Nat.succ_pos _
  | _ => exact Nat.succ_pos _

theorem height_le_iff {n : Nat} {e : Expr} (h : ¬ e.IsOperation) :
    e.height ≤ n + 1 ↔ ∀ c ∈ e.parts, c.height ≤ n :=
  depthBy_le_iff h

theorem levels_parts_lt {e c : Expr} (h : ¬ e.IsOperation) (hc : c ∈ e.parts) :
    c.levels < e.levels := by
  obtain ⟨n, hn⟩ := Nat.exists_eq_succ_of_ne_zero (Nat.ne_of_gt e.levels_pos)
  have hle := (depthBy_le_iff h).mp (Nat.le_of_eq hn) c hc
  have hc' : c.levels ≤ n := hle
  omega

theorem height_parts_lt {e c : Expr} (h : ¬ e.IsOperation) (hc : c ∈ e.parts) :
    c.height < e.height := by
  obtain ⟨n, hn⟩ := Nat.exists_eq_succ_of_ne_zero (Nat.ne_of_gt e.height_pos)
  have hc' := (height_le_iff h).mp (Nat.le_of_eq hn) c hc
  omega

theorem mul_succ_le_of_lt {k l : Nat} (h : k < l) : k * (k + 1) ≤ (l - 1) * l :=
  Nat.mul_le_mul (by omega) (by omega)

theorem le_mul_succ {h k l : Nat} (hb : 2 * h ≤ 2 * (k + 1) + (l - 1) * l) (hk : k < l) :
    2 * h ≤ l * (l + 1) := by
  obtain ⟨m, rfl⟩ : ∃ m, l = m + 1 := ⟨l - 1, by omega⟩
  have hm : (m + 1) * (m + 1 + 1) = m * (m + 1) + 2 * (m + 1) := by ring
  rw [Nat.add_sub_cancel] at hb
  omega

theorem height_le_of_operators (e : Expr) :
    2 * e.height ≤ 2 * (e.operators + 1) + (e.levels - 1) * e.levels := by
  induction hn : e.height using Nat.strongRecOn generalizing e with
  | ind n ih =>
    have hlow : ∀ c : Expr, c.height < n → 2 * c.height ≤ c.levels * (c.levels + 1) := by
      intro c hc
      exact le_mul_succ (ih c.height hc c rfl) c.operators_lt_levels
    by_cases hop : e.IsOperation
    · obtain ⟨p, l, o, r, rfl⟩ := hop
      have hr := levels_pos r
      rw [height_operation] at hn
      rw [levels_operation, operators]
      have hl := ih l.height (by omega) l rfl
      have hr' := hlow r (by omega)
      have hlm : (l.levels - 1) * l.levels ≤
          (max l.levels (l.operators + 1 + r.levels) - 1) *
            max l.levels (l.operators + 1 + r.levels) :=
        Nat.mul_le_mul (by omega) (by omega)
      have hrm := mul_succ_le_of_lt
        (show r.levels < max l.levels (l.operators + 1 + r.levels) by omega)
      omega
    · rw [operators_eq_zero hop]
      have hparts : ∀ c ∈ e.parts, c.height ≤ (e.levels - 1) * e.levels / 2 := by
        intro c hc
        have hch := height_parts_lt hop hc
        have hcl := hlow c (by omega)
        have hcm := mul_succ_le_of_lt (levels_parts_lt hop hc)
        omega
      have hle := (height_le_iff hop).mpr hparts
      omega

/-- An expression that takes `n` levels is no higher than the sum of the numbers up to `n`. -/
theorem height_le_triangle (e : Expr) : 2 * e.height ≤ e.levels * (e.levels + 1) :=
  le_mul_succ e.height_le_of_operators e.operators_lt_levels

end Expr

/-! ## Expressions that stand directly in a statement -/

/-- A script has the tree `p`, and each expression that stands directly in one of its
statements has the property `Q`, given the number of blocks around it. -/
def DirectExpressions (Q : Nat → Expr → Prop) (source : String) (p : Program) : Prop :=
  ∃ ts e, tokenize source = .ok (ts ++ [e]) ∧
    Statements (Having Q) (fun _ => True) 0 ts p.statements

theorem DirectExpressions.mono {Q Q' : Nat → Expr → Prop} {source : String} {p : Program}
    (h : DirectExpressions Q source p) (hQ : ∀ b e, Q b e → Q' b e) :
    DirectExpressions Q' source p := by
  obtain ⟨ts, e, htok, hts⟩ := h
  have ha : Allows ts.length (Having Q) (Having Q') (fun _ => True) (fun _ => True) :=
    ⟨fun he _ => ⟨he.1, hQ _ _ he.2⟩, fun _ _ => trivial⟩
  exact ⟨ts, e, htok, hts.mono ha (by omega)⟩

theorem directExpressions_of_fits {d : Nat} {source : String} {p : Program} {ts : List Token}
    {e : Token} (htok : tokenize source = .ok (ts ++ [e]))
    (h : Statements (Having (Fits d)) (· < d) 0 ts p.statements) :
    DirectExpressions (Fits d) source p := by
  have ha : Allows ts.length (Having (Fits d)) (Having (Fits d)) (· < d) (fun _ => True) :=
    ⟨fun he _ => he, fun _ _ => trivial⟩
  exact ⟨ts, e, htok, h.mono ha (by omega)⟩

/-! ## The least limit -/

theorem fits_mono {c d : Nat} (hcd : c ≤ d) {ts : List Token} {ss : List Stmt}
    (h : Statements (Having (Fits c)) (· < c) 0 ts ss) :
    Statements (Having (Fits d)) (· < d) 0 ts ss := by
  have ha : Allows ts.length (Having (Fits c)) (Having (Fits d)) (· < c) (· < d) :=
    ⟨fun he _ => ⟨he.1, Nat.le_trans he.2 hcd⟩, fun hb _ => Nat.lt_of_lt_of_le hb hcd⟩
  exact h.mono ha (by omega)

theorem exists_least_limit {source : String} {c : Int} {p : Program}
    (h : parse source c = .ok p) :
    ∃ n : Nat, ∀ d : Int, parse source d = .ok p ↔ (n : Int) ≤ d := by
  classical
  obtain ⟨hc, ts, e, htok, hplace, hts⟩ := parse_ok_iff.mp h
  have hex : ∃ n : Nat, 1 ≤ n ∧ Statements (Having (Fits n)) (· < n) 0 ts p.statements :=
    ⟨c.toNat, by omega, hts⟩
  refine ⟨Nat.find hex, ?_⟩
  intro d
  obtain ⟨hpos, hfind⟩ := Nat.find_spec hex
  constructor
  · intro hd
    obtain ⟨hd1, ts', e', htok', -, hts'⟩ := parse_ok_iff.mp hd
    rw [htok] at htok'
    obtain ⟨rfl, -⟩ := List.append_inj' (Except.ok.inj htok') rfl
    have hle := Nat.find_min' hex ⟨show 1 ≤ d.toNat by omega, hts'⟩
    omega
  · intro hd
    have hle : Nat.find hex ≤ d.toNat := by omega
    exact parse_ok_iff.mpr ⟨by omega, ts, e, htok, hplace, fits_mono hle hfind⟩

theorem directExpressions_of_parse {source : String} {d : Int} {p : Program}
    (h : parse source d = .ok p) : DirectExpressions (Fits d.toNat) source p := by
  obtain ⟨-, ts, e, htok, -, hts⟩ := parse_ok_iff.mp h
  exact directExpressions_of_fits htok hts

/-- An expression that fits in some levels is no higher than the sum of the numbers up to
those that are left. -/
theorem Fits.height_le {n b : Nat} {e : Expr} (h : Fits n b e) :
    b + e.levels ≤ n ∧ 2 * e.height ≤ (n - b) * (n - b + 1) := by
  have hle : e.levels ≤ n - b := Nat.le_sub_of_add_le' h
  refine ⟨h, Nat.le_trans e.height_le_triangle ?_⟩
  exact Nat.mul_le_mul hle (by omega)

/-! ## When the limit bounds heights -/

/-- A program that is parsed has a least limit `n` that it is parsed with.  Its expressions take
the levels that are left below `n`, and their heights are at most triangles of that.  The
heights themselves stay within the limit, for all limits that the program is parsed with,
exactly if they do for `n`. -/
theorem height_bounded_iff {source : String} {c : Int} {p : Program}
    (h : parse source c = .ok p) :
    ∃ n : Nat, (∀ d : Int, parse source d = .ok p ↔ (n : Int) ≤ d) ∧
      DirectExpressions
        (fun b e => b + e.levels ≤ n ∧ 2 * e.height ≤ (n - b) * (n - b + 1)) source p ∧
      ((∀ (d : Int) (q : Program), parse source d = .ok q →
          DirectExpressions (fun b e => ((b + e.height : Nat) : Int) ≤ d) source q) ↔
        DirectExpressions (fun b e => b + e.height ≤ n) source p) := by
  obtain ⟨n, hn⟩ := exists_least_limit h
  have hleast : parse source n = .ok p := (hn n).mpr (Int.le_refl _)
  refine ⟨n, hn, ?_, ?_⟩
  · exact (directExpressions_of_parse hleast).mono fun b e he => Fits.height_le he
  · constructor
    · intro hall
      exact (hall n p hleast).mono fun b e he => by omega
    · intro hbound d q hq
      obtain rfl := parse_unique h hq
      have hd := (hn d).mp hq
      exact hbound.mono fun b e he => by omega

theorem Phrase.Statement.exists_expression {E : Nat → List Token → Expr → Prop} {B : Nat → Prop}
    {b : Nat} {us : List Token} {p : Place} {e : Expr}
    (h : Statement E B b us (.expression p e)) : ∃ vs, E b vs e := by
  generalize hs : Stmt.expression p e = s at h
  cases h with
  | expression he _ =>
    cases hs
    exact ⟨_, he⟩
  | _ => cases hs

/-- The tree of `[1] + 1;`. -/
def listPlusOne : Program :=
  ⟨⟨1, 1⟩, [.expression ⟨1, 1⟩ (.operation ⟨1, 1⟩
    (.list ⟨1, 1⟩ [.mk ⟨1, 2⟩ (.int ⟨1, 2⟩ 1) false false]) .plus (.int ⟨1, 7⟩ 1))]⟩

/-- The script `[1] + 1;` is parsed with a least limit, and what it bounds holds of it. -/
theorem height_bounded_iff_list_plus_one :
    parse "[1] + 1;" 2 = .ok listPlusOne ∧
      ∃ n : Nat, (∀ d : Int, parse "[1] + 1;" d = .ok listPlusOne ↔ (n : Int) ≤ d) ∧
        DirectExpressions (fun b e => b + e.levels ≤ n ∧ 2 * e.height ≤ (n - b) * (n - b + 1))
          "[1] + 1;" listPlusOne := by
  have hp : parse "[1] + 1;" 2 = .ok listPlusOne := by cbv
  obtain ⟨n, hn, hd, -⟩ := height_bounded_iff hp
  exact ⟨hp, n, hn, hd⟩

/-- Two levels are enough to read `[1] + 1;`: the list is closed before the operator opens a
level.  In the tree the list is below the operator, so the height is three. -/
theorem height_exceeds_limit :
    parse "[1] + 1;" 2 = .ok listPlusOne ∧
      ¬ DirectExpressions (fun b e => ((b + e.height : Nat) : Int) ≤ 2) "[1] + 1;" listPlusOne := by
  refine ⟨by cbv, ?_⟩
  rintro ⟨ts, e, -, h⟩
  cases h with
  | cons hs _ =>
    obtain ⟨us, he⟩ := hs.exists_expression
    exact absurd he.2 (by decide)

end ScriptReader
