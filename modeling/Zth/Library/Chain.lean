import Mathlib.Data.List.Nodup
import Mathlib.Logic.Function.Basic

/-!
# Chains of nodes

Nodes are kept in a memory, a partial map from pointers, and each has a pointer to the next
one. A chain is what is found from a pointer on, until a null pointer.
-/

namespace Chain

variable {P N : Type*} (next : N → Option P)

/-- From the pointer on, these are the nodes in the memory, with their pointers. -/
def IsChain (nodes : P → Option N) : Option P → List (P × N) → Prop
  | q, [] => q = none
  | q, e :: l => q = some e.1 ∧ nodes e.1 = some e.2 ∧ IsChain nodes (next e.2) l

variable {next} {nodes nodes' : P → Option N} {q : Option P} {l : List (P × N)}

theorem isChain_nil_iff : IsChain next nodes q [] ↔ q = none := Iff.rfl

theorem isChain_cons_iff {e : P × N} :
    IsChain next nodes q (e :: l) ↔
      q = some e.1 ∧ nodes e.1 = some e.2 ∧ IsChain next nodes (next e.2) l := Iff.rfl

/-- Two memories that agree on the nodes of a chain. -/
theorem IsChain.congr (h : IsChain next nodes q l)
    (heq : ∀ e ∈ l, nodes' e.1 = nodes e.1) : IsChain next nodes' q l := by
  induction l generalizing q with
  | nil => exact h
  | cons e l ih =>
      obtain ⟨hq, he, hl⟩ := h
      refine ⟨hq, (heq e List.mem_cons_self).trans he, ih hl ?_⟩
      exact fun e' he' => heq e' (List.mem_cons_of_mem e he')

/-- A write to the memory outside the chain. -/
theorem IsChain.update [DecidableEq P] (h : IsChain next nodes q l) {p : P}
    (hp : p ∉ l.map Prod.fst) (n : Option N) :
    IsChain next (Function.update nodes p n) q l := by
  refine h.congr fun e he => Function.update_of_ne ?_ _ _
  rintro rfl
  exact hp (List.mem_map_of_mem he)

end Chain
