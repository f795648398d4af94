import Mathlib.Data.Nat.Digits.Defs
import ScriptReader.Proofs.NodeFields
import ScriptReader.Proofs.WellFormed

/-!
# Nodes that have a text

A node is written part by part, and has no text if one of its parts has none.  In the end that is
always an integer with too many digits.  So the nodes without such integers are those that have a
text, and all others have the same error in its place.

Main statements:

* `Node.describe_ok_iff`: the text of a node, by those of its fields;
* `Node.hasText_iff`: which nodes have a text;
* `Node.describe_error_iff`: what comes out of the others;
* `Program.hasText_of_parse`: a program that is read has a text.
-/

namespace ScriptReader

/-! ## Texts that may be missing -/

/-- There is a text. -/
def HasText (o : Except Error String) : Prop :=
  ∃ s, o = .ok s

/-- The text, if there is one. -/
def written : Except Error String → String
  | .ok s => s
  | .error _ => ""

theorem HasText.eq_ok {o : Except Error String} (h : HasText o) : o = .ok (written o) := by
  obtain ⟨s, rfl⟩ := h
  rfl

section

variable {α β : Type} {f : α → Except Error β} {xs : List α}

theorem return_ok_iff {g : α → β} {o : Except Error α} {b : β} :
    (do return g (← o) : Except Error β) = .ok b ↔ ∃ a, o = .ok a ∧ g a = b := by
  cases o <;> simp [bind, Except.bind, pure, Except.pure]

/-- A list is mapped by a function that may fail if the function fails nowhere on it. -/
theorem mapM_ok_iff {g : α → β} (hg : ∀ x y, f x = .ok y → y = g x) {ys : List β} :
    xs.mapM f = .ok ys ↔ (∀ x ∈ xs, ∃ y, f x = .ok y) ∧ ys = xs.map g := by
  induction xs generalizing ys with
  | nil => simp [pure, Except.pure, eq_comm]
  | cons x xs ih =>
    rw [List.mapM_cons, List.forall_mem_cons, List.map_cons]
    cases hx : f x with
    | error e => simp [bind, Except.bind]
    | ok y =>
      obtain rfl := hg x y hx
      show (do return g x :: (← xs.mapM f) : Except Error (List β)) = .ok ys ↔ _
      rw [return_ok_iff]
      constructor
      · rintro ⟨zs, hzs, rfl⟩
        obtain ⟨hall, rfl⟩ := ih.mp hzs
        exact ⟨⟨⟨_, rfl⟩, hall⟩, rfl⟩
      · rintro ⟨⟨-, hall⟩, rfl⟩
        exact ⟨_, ih.mpr ⟨hall, rfl⟩, rfl⟩

theorem return_mapM_ok_iff {γ : Type} {g : α → β} (hg : ∀ x y, f x = .ok y → y = g x)
    {k : List β → γ} {c : γ} : (do return k (← xs.mapM f) : Except Error γ) = .ok c ↔
      (∀ x ∈ xs, ∃ y, f x = .ok y) ∧ c = k (xs.map g) := by
  rw [return_ok_iff]
  constructor
  · rintro ⟨ys, hys, rfl⟩
    obtain ⟨hall, rfl⟩ := (mapM_ok_iff hg).mp hys
    exact ⟨hall, rfl⟩
  · rintro ⟨hall, rfl⟩
    exact ⟨_, (mapM_ok_iff hg).mpr ⟨hall, rfl⟩, rfl⟩

theorem return_mapM_cases {γ : Type} {e : Error} (k : List β → γ)
    (h : ∀ x ∈ xs, (∃ y, f x = .ok y) ∨ f x = .error e) :
    (∃ c, (do return k (← xs.mapM f) : Except Error γ) = .ok c) ∨
      (do return k (← xs.mapM f) : Except Error γ) = .error e := by
  induction xs generalizing k with
  | nil => exact Or.inl ⟨k [], rfl⟩
  | cons x xs ih =>
    obtain ⟨hx, hxs⟩ := List.forall_mem_cons.mp h
    simp only [List.mapM_cons, bind_assoc, pure_bind]
    rcases hx with ⟨y, hy⟩ | hx
    · rw [hy]
      exact ih (fun ys => k (y :: ys)) hxs
    · rw [hx]
      exact Or.inr rfl

end

theorem describeTuple_ok_iff {os : List (Except Error String)} {s : String} :
    describeTuple os = .ok s ↔ (∀ o ∈ os, HasText o) ∧ s = tupleText (os.map written) :=
  return_mapM_ok_iff fun o t ho => by rw [show o = .ok t from ho]; rfl

theorem describeNode_ok_iff {kind : String} {parts : List (String × Except Error String)}
    {s : String} : describeNode kind parts = .ok s ↔ (∀ x ∈ parts, HasText x.2) ∧
      s = nodeText kind (parts.map fun (name, o) => (name, written o)) := by
  have hpart : ∀ {x : String × Except Error String} {y : String × String},
      (do return (x.1, ← x.2) : Except Error (String × String)) = .ok y ↔
        HasText x.2 ∧ y = (x.1, written x.2) := by
    rintro ⟨name, o⟩ y
    rw [return_ok_iff]
    constructor
    · rintro ⟨t, rfl, rfl⟩
      exact ⟨⟨t, rfl⟩, rfl⟩
    · rintro ⟨ho, rfl⟩
      exact ⟨_, ho.eq_ok, rfl⟩
  rw [describeNode, return_mapM_ok_iff fun x y hy => (hpart.mp hy).2]
  exact and_congr_left' (forall₂_congr fun x _ =>
    ⟨fun ⟨y, hy⟩ => (hpart.mp hy).1, fun h => ⟨_, hpart.mpr ⟨h, rfl⟩⟩⟩)

/-! ## Integers -/

/-- An integer has a text exactly if it has no more digits than are converted. -/
theorem hasText_describeInt {n : Int} :
    HasText (describeInt n) ↔ n.natAbs < 10 ^ digitLimit := by
  rw [← Nat.length_toDigits_le_iff (by decide) (by decide), describeInt]
  split
  · next h => exact iff_of_true ⟨_, rfl⟩ h
  · next h => exact iff_of_false (fun ⟨s, hs⟩ => by cases hs) h

theorem describeInt_cases (n : Int) :
    HasText (describeInt n) ∨ describeInt n = .error .integerTooLong := by
  unfold describeInt
  split
  · exact Or.inl ⟨_, rfl⟩
  · exact Or.inr rfl

/-! ## Values and nodes -/

/-- What holds of a value if it holds of the elements, should it be a tuple, holds of all values. -/
theorem Field.induct {P : Field → Prop} (h : ∀ f, (∀ fs, f = .tuple fs → ∀ g ∈ fs, P g) → P f)
    (f : Field) : P f :=
  h f fun _ _ g _ => induct h g
termination_by sizeOf f
decreasing_by
  subst f
  have := List.sizeOf_lt_of_mem ‹g ∈ _›
  simp only [tuple.sizeOf_spec]
  omega

theorem Field.describe_tuple_ok_iff {fs : List Field} {s : String} :
    (Field.tuple fs).describe = .ok s ↔ (∀ f ∈ fs, HasText f.describe) ∧
      s = tupleText (fs.map fun f => written f.describe) := by
  rw [describe_tuple, describeTuple_ok_iff, List.forall_mem_map, List.map_map]
  rfl

/-- A node has a text if its fields have, and it is written from these. -/
theorem Node.describe_ok_iff {n : Node} {s : String} :
    n.describe = .ok s ↔ (∀ x ∈ n.fields, HasText x.2.describe) ∧
      s = nodeText n.kind.name (n.fields.map fun (name, f) => (name, written f.describe)) := by
  rw [describe_eq, describeNode_ok_iff, List.forall_mem_map, List.map_map]
  rfl

/-- The value has no more digits than are converted, if it is an integer. -/
def Field.IsBrief : Field → Prop
  | .int n => n.natAbs < 10 ^ digitLimit
  | _ => True

/-- The integers of a node and of all nodes inside have no more digits than are converted. -/
inductive Node.Brief : Node → Prop
  | node {n : Node} (h : n.NumberHas Field.IsBrief) (hs : ∀ m ∈ n.nodes, Brief m) : Brief n

theorem Field.hasText_iff (f : Field) :
    HasText f.describe ↔ f.All (fun n => HasText n.describe) IsBrief := by
  induction f using Field.induct with
  | h f ih =>
    cases f with
    | int n => exact hasText_describeInt
    | node n => exact Iff.rfl
    | tuple fs =>
      rw [HasText, All, allIn_iff]
      simp only [describe_tuple_ok_iff, exists_and_left, exists_eq, and_true]
      exact forall₂_congr (ih fs rfl)
    | _ => exact iff_of_true ⟨_, rfl⟩ trivial

/-- The nodes without too long an integer are those that have a text. -/
theorem Node.hasText_iff (n : Node) : HasText n.describe ↔ n.Brief := by
  induction n using Node.induct with
  | h n ih =>
    have hfields : HasText n.describe ↔ ∀ x ∈ n.fields, HasText x.2.describe := by
      simp only [HasText, describe_ok_iff, exists_and_left, exists_eq, and_true]
    simp only [hfields, Field.hasText_iff, all_fields_iff]
    constructor
    · rintro ⟨hparts, hnumber⟩
      exact .node hnumber fun m hm => (ih m hm).mp (hparts m hm)
    · rintro ⟨hnumber, hparts⟩
      exact ⟨fun m hm => (ih m hm).mpr (hparts m hm), hnumber⟩

theorem Field.describe_cases (f : Field)
    (hf : f.All (fun n => HasText n.describe ∨ n.describe = .error .integerTooLong)
      fun _ => True) :
    HasText f.describe ∨ f.describe = .error .integerTooLong := by
  induction f using Field.induct with
  | h f ih =>
    cases f with
    | int n => exact describeInt_cases n
    | node n => exact hf
    | tuple fs =>
      rw [All, allIn_iff] at hf
      rw [describe_tuple]
      refine return_mapM_cases tupleText (List.forall_mem_map.mpr fun g hg => ?_)
      exact ih fs rfl g hg (hf g hg)
    | _ => exact Or.inl ⟨_, rfl⟩

theorem Node.numberHas_true (n : Node) : n.NumberHas fun _ => True := by
  unfold NumberHas
  split <;> trivial

theorem Node.describe_cases (n : Node) :
    HasText n.describe ∨ n.describe = .error .integerTooLong := by
  induction n using Node.induct with
  | h n ih =>
    rw [describe_eq]
    refine return_mapM_cases (nodeText _) (List.forall_mem_map.mpr fun ⟨name, f⟩ hx => ?_)
    dsimp only
    rcases f.describe_cases (all_fields_iff.mpr ⟨ih, n.numberHas_true⟩ _ hx) with ⟨s, hs⟩ | hf
    · exact Or.inl ⟨(name, s), by rw [hs]; rfl⟩
    · exact Or.inr (by rw [hf]; rfl)

/-- What comes out of a node with too long an integer. -/
theorem Node.describe_error_iff (n : Node) :
    n.describe = .error .integerTooLong ↔ ¬ n.Brief := by
  rw [← hasText_iff]
  constructor
  · rintro h ⟨s, hs⟩
    rw [h] at hs
    cases hs
  · exact n.describe_cases.resolve_left

/-! ## Programs that are read -/

theorem isBrief_of_read {n : Int} (h : leastInt ≤ n ∧ n ≤ greatestInt) :
    (Field.int n).IsBrief := by
  have hn : n.natAbs < 10 ^ 10 := by
    unfold leastInt greatestInt at h
    omega
  exact Nat.lt_of_lt_of_le hn (Nat.pow_le_pow_right (by decide) (by decide))

theorem Expr.WellFormed.brief {e : Expr} (h : e.WellFormed) : (Node.expr e).Brief := by
  induction h with
  | @node e h _ ih =>
    cases e with
    | blank p => exact h.elim
    | int p n => exact .node (isBrief_of_read h) (List.forall_mem_nil _)
    | list p items =>
      refine .node trivial (List.forall_mem_map.mpr fun i hi => ?_)
      obtain ⟨q, e, isSpread, isPack⟩ := i
      exact .node trivial (List.forall_mem_singleton.mpr (ih e (List.mem_map_of_mem hi)))
    | call p name es => exact .node trivial (List.forall_mem_map.mpr ih)
    | index p name e => exact .node trivial (List.forall_mem_singleton.mpr (ih e (by simp [parts])))
    | step p name o amount =>
      obtain ⟨-, -, q, rfl⟩ := h
      have hone : (Node.expr (.int q 1)).Brief := .node (isBrief_of_read (by decide)) (List.forall_mem_nil _)
      exact .node trivial (List.forall_mem_singleton.mpr hone)
    | operation p l o r =>
      refine .node trivial (List.forall_mem_cons.mpr ⟨ih l (by simp [parts]), ?_⟩)
      exact List.forall_mem_singleton.mpr (ih r (by simp [parts]))
    | comprehension p body name source =>
      refine .node trivial (List.forall_mem_cons.mpr ⟨ih body (by simp [parts]), ?_⟩)
      exact List.forall_mem_singleton.mpr (ih source (by simp [parts]))
    | _ => exact .node trivial (List.forall_mem_nil _)

theorem Stmt.WellFormed.brief {s : Stmt} (h : s.WellFormed) : (Node.stmt s).Brief := by
  induction h with
  | @node s h he _ ih =>
    have hexpr : ∀ e ∈ s.expressions, (Node.expr e).Brief := fun e hmem => (he e hmem).brief
    cases s with
    | blank p => exact h.elim
    | load p path => exact .node trivial (List.forall_mem_nil _)
    | assignment p target value =>
      refine .node trivial (List.forall_mem_cons.mpr ⟨hexpr _ (by simp [expressions]), ?_⟩)
      exact List.forall_mem_singleton.mpr (hexpr _ (by simp [expressions]))
    | update p name o amount =>
      exact .node trivial (List.forall_mem_singleton.mpr (hexpr _ (by simp [expressions])))
    | expression p e =>
      exact .node trivial (List.forall_mem_singleton.mpr (hexpr _ (by simp [expressions])))
    | whileLoop p e ss =>
      refine .node trivial (List.forall_mem_cons.mpr ⟨hexpr _ (by simp [expressions]), ?_⟩)
      exact List.forall_mem_map.mpr ih
    | forLoop p loop =>
      obtain ⟨q, name, e, ss⟩ := loop
      refine .node trivial (List.forall_mem_singleton.mpr (.node trivial ?_))
      refine List.forall_mem_cons.mpr ⟨hexpr _ (by simp [expressions]), ?_⟩
      exact List.forall_mem_map.mpr ih
    | function p name names ss result =>
      refine .node trivial (List.forall_mem_append.mpr ⟨List.forall_mem_map.mpr ih, ?_⟩)
      exact List.forall_mem_map.mpr hexpr
    | conditional p branch =>
      obtain ⟨q, e, ss, cs, last⟩ := branch
      obtain ⟨hss, hcs, hlast⟩ := forall_inner_conditional.mp ih
      refine .node trivial (List.forall_mem_singleton.mpr (.node trivial ?_))
      simp only [Node.nodes, Branch.nodes, List.cons_append, List.forall_mem_cons,
        List.forall_mem_append, List.forall_mem_flatMap, List.forall_mem_map]
      refine ⟨hexpr _ (by simp [expressions]), ⟨hss, fun c hc => ?_⟩, hlast⟩
      obtain ⟨e, ts⟩ := c
      refine List.forall_mem_cons.mpr ⟨hexpr e ?_, List.forall_mem_map.mpr (hcs _ hc)⟩
      exact List.mem_cons_of_mem _ (List.mem_map_of_mem hc)

/-- A program that is read has a text. -/
theorem Program.hasText_of_parse {source : String} {limit : Int} {p : Program}
    (h : parse source limit = .ok p) : HasText p.describe := by
  refine (Node.program p).hasText_iff.mpr (.node trivial (List.forall_mem_map.mpr fun s hs => ?_))
  exact (wellFormed_of_parse h s hs).brief

end ScriptReader
