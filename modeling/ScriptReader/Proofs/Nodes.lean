import ScriptReader.Tree

/-!
# The parts of a node

The nodes directly inside a node, in the order in which they are written, and the place of a node
of each kind.  What holds of a node if it holds of its parts holds of all nodes.

Main statement: `Node.induct`.
-/

namespace ScriptReader

/-! ## Parts -/

/-- The nodes directly inside an expression. -/
def Expr.nodes : Expr → List Node
  | .list _ items => items.map .item
  | .call _ _ es => es.map .expr
  | .index _ _ e => [.expr e]
  | .step _ _ _ amount => [.expr amount]
  | .operation _ l _ r => [.expr l, .expr r]
  | .comprehension _ body _ source => [.expr body, .expr source]
  | _ => []

/-- The nodes directly inside a statement. -/
def Stmt.nodes : Stmt → List Node
  | .assignment _ target value => [.expr target, .expr value]
  | .update _ _ _ amount => [.expr amount]
  | .conditional _ branch => [.branch branch]
  | .whileLoop _ e ss => .expr e :: ss.map .stmt
  | .forLoop _ loop => [.loop loop]
  | .expression _ e => [.expr e]
  | .function _ _ _ ss result => ss.map .stmt ++ result.toList.map .expr
  | _ => []

/-- The nodes directly inside a clause, which is no node itself. -/
def Clause.nodes : Clause → List Node
  | .mk e ss => .expr e :: ss.map .stmt

/-- The nodes directly inside the parts of an `if`. -/
def Branch.nodes : Branch → List Node
  | .mk _ e ss cs last =>
    .expr e :: ss.map .stmt ++ cs.flatMap Clause.nodes ++ (last.getD []).map .stmt

/-- The nodes directly inside the parts of a `for`. -/
def Loop.nodes : Loop → List Node
  | .mk _ _ e ss => .expr e :: ss.map .stmt

/-- The nodes directly inside a node, in the order in which they are written. -/
def Node.nodes : Node → List Node
  | .blank _ => []
  | .expr e => e.nodes
  | .stmt s => s.nodes
  | .item (.mk _ e _ _) => [.expr e]
  | .branch b => b.nodes
  | .loop l => l.nodes
  | .program p => p.statements.map .stmt

/-! ## Places -/

/-- The place of the parts of an `if`. -/
def Branch.place : Branch → Place
  | .mk p _ _ _ _ => p

/-- The place of the parts of a `for`. -/
def Loop.place : Loop → Place
  | .mk p _ _ _ => p

/-- The place of an item. -/
def Item.place : Item → Place
  | .mk p _ _ _ => p

/-- The place of a node. -/
def Node.place : Node → Place
  | .blank p => p
  | .expr e => e.place
  | .stmt s => s.place
  | .item i => i.place
  | .branch b => b.place
  | .loop l => l.place
  | .program p => p.place

/-! ## Parts are smaller -/

theorem Expr.sizeOf_lt {e : Expr} {n : Node} (h : n ∈ e.nodes) : sizeOf n < sizeOf e + 1 := by
  cases e with
  | list p items =>
    obtain ⟨i, hi, rfl⟩ := List.mem_map.mp h
    have := List.sizeOf_lt_of_mem hi
    simp only [Node.item.sizeOf_spec, list.sizeOf_spec]
    omega
  | call p name es =>
    obtain ⟨e, he, rfl⟩ := List.mem_map.mp h
    have := List.sizeOf_lt_of_mem he
    simp only [Node.expr.sizeOf_spec, call.sizeOf_spec]
    omega
  | index | step =>
    obtain rfl := List.mem_singleton.mp h
    simp only [Node.expr.sizeOf_spec, index.sizeOf_spec, step.sizeOf_spec]
    omega
  | operation | comprehension =>
    simp only [nodes, List.mem_cons, List.not_mem_nil, or_false] at h
    rcases h with rfl | rfl <;>
      simp only [Node.expr.sizeOf_spec, operation.sizeOf_spec, comprehension.sizeOf_spec] <;> omega
  | _ => cases h

theorem sizeOf_lt_of_mem_block {ss : List Stmt} {n : Node} (h : n ∈ ss.map Node.stmt) :
    sizeOf n < sizeOf ss + 1 := by
  obtain ⟨s, hs, rfl⟩ := List.mem_map.mp h
  have := List.sizeOf_lt_of_mem hs
  simp only [Node.stmt.sizeOf_spec]
  omega

theorem Clause.sizeOf_lt {c : Clause} {n : Node} (h : n ∈ c.nodes) : sizeOf n < sizeOf c + 1 := by
  obtain ⟨e, ss⟩ := c
  rcases List.mem_cons.mp h with rfl | h
  · simp only [Node.expr.sizeOf_spec, mk.sizeOf_spec]
    omega
  · have := sizeOf_lt_of_mem_block h
    simp only [mk.sizeOf_spec]
    omega

theorem Branch.sizeOf_lt {b : Branch} {n : Node} (h : n ∈ b.nodes) : sizeOf n < sizeOf b + 1 := by
  obtain ⟨p, e, ss, cs, last⟩ := b
  simp only [nodes, List.cons_append, List.mem_cons, List.mem_append, List.mem_flatMap] at h
  rcases h with rfl | (h | ⟨c, hc, h⟩) | h
  · simp only [Node.expr.sizeOf_spec, mk.sizeOf_spec]
    omega
  · have := sizeOf_lt_of_mem_block h
    simp only [mk.sizeOf_spec]
    omega
  · have := Clause.sizeOf_lt h
    have := List.sizeOf_lt_of_mem hc
    simp only [mk.sizeOf_spec]
    omega
  · cases last with
    | none => cases h
    | some ts =>
      have := sizeOf_lt_of_mem_block h
      simp only [mk.sizeOf_spec, Option.some.sizeOf_spec, Option.getD_some] at this ⊢
      omega

theorem Loop.sizeOf_lt {l : Loop} {n : Node} (h : n ∈ l.nodes) : sizeOf n < sizeOf l + 1 := by
  obtain ⟨p, name, e, ss⟩ := l
  rcases List.mem_cons.mp h with rfl | h
  · simp only [Node.expr.sizeOf_spec, mk.sizeOf_spec]
    omega
  · have := sizeOf_lt_of_mem_block h
    simp only [mk.sizeOf_spec]
    omega

theorem Stmt.sizeOf_lt {s : Stmt} {n : Node} (h : n ∈ s.nodes) : sizeOf n < sizeOf s + 1 := by
  cases s with
  | blank | load => cases h
  | assignment =>
    simp only [nodes, List.mem_cons, List.not_mem_nil, or_false] at h
    rcases h with rfl | rfl <;> simp only [Node.expr.sizeOf_spec, assignment.sizeOf_spec] <;> omega
  | update | conditional | forLoop | expression =>
    obtain rfl := List.mem_singleton.mp h
    simp only [Node.expr.sizeOf_spec, Node.branch.sizeOf_spec, Node.loop.sizeOf_spec,
      update.sizeOf_spec, conditional.sizeOf_spec, forLoop.sizeOf_spec, expression.sizeOf_spec]
    omega
  | whileLoop p e ss =>
    rcases List.mem_cons.mp h with rfl | h
    · simp only [Node.expr.sizeOf_spec, whileLoop.sizeOf_spec]
      omega
    · have := sizeOf_lt_of_mem_block h
      simp only [whileLoop.sizeOf_spec]
      omega
  | function p name names ss result =>
    rcases List.mem_append.mp h with h | h
    · have := sizeOf_lt_of_mem_block h
      simp only [function.sizeOf_spec]
      omega
    · obtain ⟨e, he, rfl⟩ := List.mem_map.mp h
      obtain rfl := Option.mem_toList.mp he
      simp only [Node.expr.sizeOf_spec, function.sizeOf_spec, Option.some.sizeOf_spec]
      omega

theorem Node.sizeOf_lt {m n : Node} (h : m ∈ n.nodes) : sizeOf m < sizeOf n := by
  cases n with
  | blank p => cases h
  | expr e =>
    have := e.sizeOf_lt h
    simp only [expr.sizeOf_spec]
    omega
  | stmt s =>
    have := s.sizeOf_lt h
    simp only [stmt.sizeOf_spec]
    omega
  | item i =>
    obtain ⟨p, e, isSpread, isPack⟩ := i
    obtain rfl := List.mem_singleton.mp h
    simp only [expr.sizeOf_spec, item.sizeOf_spec, Item.mk.sizeOf_spec]
    omega
  | branch b =>
    have := b.sizeOf_lt h
    simp only [branch.sizeOf_spec]
    omega
  | loop l =>
    have := l.sizeOf_lt h
    simp only [loop.sizeOf_spec]
    omega
  | program p =>
    obtain ⟨place, ss⟩ := p
    have hm : m ∈ ss.map .stmt := h
    have := sizeOf_lt_of_mem_block hm
    simp only [program.sizeOf_spec, Program.mk.sizeOf_spec]
    omega

/-- What holds of a node if it holds of its parts holds of every node. -/
theorem Node.induct {P : Node → Prop} (h : ∀ n, (∀ m ∈ n.nodes, P m) → P n) (n : Node) : P n :=
  h n fun m _ => induct h m
termination_by sizeOf n
decreasing_by exact sizeOf_lt ‹_›

end ScriptReader
