import Mathlib.Data.Finset.BooleanAlgebra
import Mathlib.Data.Fintype.Card
import Mathlib.Logic.Relation

/-!
# Search with a stack of pending nodes

A search over a finite graph that pops a pending node, skips it if it was visited, and otherwise expands it:
expanding changes a state and yields the nodes to push. `run` is the search; `order` is the order in which it
expands, for successors that do not depend on the state. Every node that can be reached is expanded once.
-/

namespace Worklist

variable {α σ : Type}

/-- Visiting another node leaves fewer. -/
theorem card_compl_insert_lt [Fintype α] [DecidableEq α] {visited : Finset α} {a : α} (h : a ∉ visited) :
    (insert a visited)ᶜ.card < visitedᶜ.card := by
  apply Finset.card_lt_card
  rw [Finset.compl_ssubset_compl]
  exact Finset.ssubset_insert h

/-- The search from the pending nodes, the top of the stack in front. `expand` yields the pushed nodes with the
last one in front. -/
def run [Fintype α] [DecidableEq α] (expand : α → σ → List α × σ) (visited : Finset α) : List α → σ → σ
  | [], s => s
  | a :: pending, s =>
    if a ∈ visited then run expand visited pending s
    else run expand (insert a visited) ((expand a s).1 ++ pending) (expand a s).2
  termination_by pending => (visitedᶜ.card, pending.length)
  decreasing_by
    · exact Prod.Lex.right _ (Nat.lt_succ_self _)
    · exact Prod.Lex.left _ _ (card_compl_insert_lt ‹_›)

/-- The nodes expanded by the search, in order. -/
def order [Fintype α] [DecidableEq α] (next : α → List α) (visited : Finset α) : List α → List α
  | [] => []
  | a :: pending =>
    if a ∈ visited then order next visited pending
    else a :: order next (insert a visited) (next a ++ pending)
  termination_by pending => (visitedᶜ.card, pending.length)
  decreasing_by
    · exact Prod.Lex.right _ (Nat.lt_succ_self _)
    · exact Prod.Lex.left _ _ (card_compl_insert_lt ‹_›)

variable [Fintype α] [DecidableEq α] {next : α → List α} {visited : Finset α} {pending : List α} {a b : α}

theorem order_cons_visited (h : a ∈ visited) : order next visited (a :: pending) = order next visited pending := by
  rw [order, if_pos h]

theorem order_cons (h : a ∉ visited) :
    order next visited (a :: pending) = a :: order next (insert a visited) (next a ++ pending) := by
  rw [order, if_neg h]

/-- While an invariant fixes what is pushed, the search expands the nodes of `order`. -/
theorem run_eq_foldl {expand : α → σ → List α × σ} (Inv : σ → Prop)
    (hexpand : ∀ a s, Inv s → (expand a s).1 = next a ∧ Inv (expand a s).2) (visited : Finset α)
    (pending : List α) {s : σ} (h : Inv s) :
    run expand visited pending s = (order next visited pending).foldl (fun s a => (expand a s).2) s := by
  induction visited, pending using order.induct next generalizing s with
  | case1 visited => rw [run, order, List.foldl_nil]
  | case2 visited a pending hmem ih => rw [run, order, if_pos hmem, if_pos hmem, ih h]
  | case3 visited a pending hmem ih =>
    obtain ⟨hnext, hinv⟩ := hexpand a s h
    rw [run, order, if_neg hmem, if_neg hmem, hnext, ih hinv, List.foldl_cons]

/-- No node is expanded that was visited before. -/
theorem not_mem_order (h : a ∈ visited) : a ∉ order next visited pending := by
  induction visited, pending using order.induct next with
  | case1 visited => rw [order]; exact List.not_mem_nil
  | case2 visited b pending hmem ih => rw [order_cons_visited hmem]; exact ih h
  | case3 visited b pending hmem ih =>
    rw [order_cons hmem, List.mem_cons, not_or]
    refine ⟨fun heq => hmem (heq ▸ h), ih (Finset.mem_insert_of_mem h)⟩

/-- No node is expanded twice. -/
theorem order_nodup (next : α → List α) (visited : Finset α) (pending : List α) :
    (order next visited pending).Nodup := by
  induction visited, pending using order.induct next with
  | case1 visited => rw [order]; exact List.nodup_nil
  | case2 visited a pending hmem ih => rw [order_cons_visited hmem]; exact ih
  | case3 visited a pending hmem ih =>
    rw [order_cons hmem, List.nodup_cons]
    exact ⟨not_mem_order (Finset.mem_insert_self a visited), ih⟩

/-- A node leads to those it pushes. -/
def Leads {α : Type} (next : α → List α) (a b : α) : Prop :=
  b ∈ next a

theorem reachable_of_mem_order (h : b ∈ order next visited pending) :
    ∃ a ∈ pending, Relation.ReflTransGen (Leads next) a b := by
  induction visited, pending using order.induct next with
  | case1 visited => rw [order] at h; exact absurd h List.not_mem_nil
  | case2 visited a pending hmem ih =>
    rw [order_cons_visited hmem] at h
    obtain ⟨c, hc, hreach⟩ := ih h
    exact ⟨c, List.mem_cons_of_mem _ hc, hreach⟩
  | case3 visited a pending hmem ih =>
    rw [order_cons hmem] at h
    rcases List.mem_cons.mp h with rfl | hrest
    · exact ⟨b, List.mem_cons_self, .refl⟩
    obtain ⟨c, hc, hreach⟩ := ih hrest
    rcases List.mem_append.mp hc with hpushed | hpending
    · exact ⟨a, List.mem_cons_self, .head hpushed hreach⟩
    · exact ⟨c, List.mem_cons_of_mem _ hpending, hreach⟩

/-- Every pending node, and every node that an expanded one pushes, is expanded unless visited before. -/
theorem closed_order (next : α → List α) (visited : Finset α) (pending : List α) :
    (∀ a ∈ pending, a ∈ visited ∨ a ∈ order next visited pending) ∧
      ∀ a ∈ order next visited pending, ∀ b ∈ next a, b ∈ visited ∨ b ∈ order next visited pending := by
  induction visited, pending using order.induct next with
  | case1 visited =>
    rw [order]
    exact ⟨fun a h => absurd h List.not_mem_nil, fun a h => absurd h List.not_mem_nil⟩
  | case2 visited a pending hmem ih =>
    rw [order_cons_visited hmem]
    refine ⟨fun b hb => ?_, ih.2⟩
    rcases List.mem_cons.mp hb with rfl | hb
    · exact .inl hmem
    · exact ih.1 b hb
  | case3 visited a pending hmem ih =>
    rw [order_cons hmem]
    -- what is visited from now on is visited before, or the node itself
    have hlift : ∀ b, b ∈ insert a visited ∨ b ∈ order next (insert a visited) (next a ++ pending) →
        b ∈ visited ∨ b ∈ a :: order next (insert a visited) (next a ++ pending) := by
      rintro b (hb | hb)
      · rcases Finset.mem_insert.mp hb with rfl | hb
        · exact .inr List.mem_cons_self
        · exact .inl hb
      · exact .inr (List.mem_cons_of_mem _ hb)
    refine ⟨fun b hb => ?_, fun b hb c hc => ?_⟩
    · rcases List.mem_cons.mp hb with rfl | hb
      · exact .inr List.mem_cons_self
      · exact hlift b (ih.1 b (List.mem_append_right _ hb))
    · rcases List.mem_cons.mp hb with rfl | hb
      · exact hlift c (ih.1 c (List.mem_append_left _ hc))
      · exact hlift c (ih.2 b hb c hc)

/-- Started with nothing visited, the search expands the nodes reachable from the pending ones. -/
theorem mem_order_iff : b ∈ order next ∅ pending ↔ ∃ a ∈ pending, Relation.ReflTransGen (Leads next) a b := by
  obtain ⟨hpending, hclosed⟩ := closed_order next ∅ pending
  refine ⟨reachable_of_mem_order, ?_⟩
  rintro ⟨a, ha, hreach⟩
  induction hreach with
  | refl => exact (hpending a ha).resolve_left (Finset.notMem_empty a)
  | tail _ hlead ih => exact (hclosed _ ih _ hlead).resolve_left (Finset.notMem_empty _)

end Worklist
