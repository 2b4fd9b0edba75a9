import Mathlib.Data.List.Nodup

/-! Finite chains of links. -/

namespace Links

variable {α : Type} {next other : α → Option α} {head : Option α} {first second new : α}
  {nodes others front back rest : List α}

/-- The links from a head lead through these nodes and then end. -/
inductive Chain (next : α → Option α) : Option α → List α → Prop
  | nil : Chain next none []
  | cons {node : α} {rest : List α} (tail : Chain next (next node) rest) :
      Chain next (some node) (node :: rest)

namespace Chain

theorem tail (chain : Chain next (some first) (first :: rest)) : Chain next (next first) rest := by
  cases chain with
  | cons tail => exact tail

theorem head_eq (chain : Chain next head nodes) : head = nodes.head? := by
  cases chain with
  | nil => rfl
  | cons tail => rfl

theorem unique (left : Chain next head nodes) (right : Chain next head others) :
    nodes = others := by
  induction left generalizing others with
  | nil =>
      cases right with
      | nil => rfl
  | cons tail ih =>
      cases right with
      | cons tail => rw [ih tail]

theorem suffix (chain : Chain next head (front ++ first :: back)) :
    Chain next (some first) (first :: back) := by
  induction front generalizing head with
  | nil =>
      have same := chain.head_eq
      rw [List.nil_append, List.head?_cons] at same
      rw [← same]
      exact chain
  | cons node front ih =>
      cases chain with
      | cons tail => exact ih tail

theorem nodup (chain : Chain next head nodes) : nodes.Nodup := by
  induction chain with
  | nil => exact List.nodup_nil
  | @cons node rest tail ih =>
      refine List.nodup_cons.mpr ⟨fun member => ?_, ih⟩
      obtain ⟨front, back, rfl⟩ := List.append_of_mem member
      have again := tail.suffix.unique (.cons tail)
      have lengths := congrArg List.length again
      simp only [List.length_cons, List.length_append] at lengths
      omega

theorem congr (chain : Chain next head nodes) (same : ∀ node ∈ nodes, other node = next node) :
    Chain other head nodes := by
  induction chain with
  | nil => exact .nil
  | @cons node rest tail ih =>
      refine .cons ?_
      rw [same node List.mem_cons_self]
      exact ih fun later member => same later (List.mem_cons_of_mem _ member)

theorem concat (chain : Chain next (some first) (first :: nodes))
    (kept : ∀ node ∈ first :: nodes, node ≠ nodes.getLastD first → other node = next node)
    (linked : other (nodes.getLastD first) = some new) (ends : other new = none) :
    Chain other (some first) (first :: (nodes ++ [new])) := by
  induction nodes generalizing first with
  | nil =>
      rw [List.getLastD_nil] at linked
      refine .cons ?_
      rw [linked]
      refine .cons ?_
      rw [ends]
      exact .nil
  | cons second nodes ih =>
      have distinct := chain.nodup
      have tail := chain.tail
      rw [List.getLastD_cons] at kept linked
      have second_eq : next first = some second := tail.head_eq
      have different : first ≠ nodes.getLastD second := by
        intro same
        have last : nodes.getLastD second ∈ second :: nodes := List.getLastD_mem_cons
        rw [← same] at last
        exact (List.nodup_cons.mp distinct).1 last
      refine .cons ?_
      rw [kept first List.mem_cons_self different, second_eq]
      rw [second_eq] at tail
      exact ih tail (fun node member => kept node (List.mem_cons_of_mem _ member)) linked

theorem bypass (chain : Chain next (some first) (first :: second :: rest))
    (kept : ∀ node ∈ rest, other node = next node) (linked : other first = next second) :
    Chain other (some first) (first :: rest) := by
  have tail := chain.tail
  rw [tail.head_eq, List.head?_cons] at tail
  refine .cons ?_
  rw [linked]
  exact tail.tail.congr kept

end Chain

end Links
