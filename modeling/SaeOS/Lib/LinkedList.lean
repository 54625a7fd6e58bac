import Mathlib.Data.List.Nodup
import Mathlib.Logic.Function.Basic

/-!
# Intrusive doubly linked lists

A doubly linked list whose links are stored per node, as two functions `prev next : α → α` and a
null link `nil`. `Chain` relates the links to the list of nodes they thread; the two pointer
updates of such a structure, pushing at the front and unlinking a node found anywhere, are shown
to act on that list as `cons` and `erase`.

The module introduces:

* `Chain nil prev next p c l` — starting from the link `c`, with `p` the node before, the links
  thread exactly the nodes of `l`.
* `follow nil next n c` — the nodes met by following `next` from `c`, at most `n` of them.
-/

namespace LinkedList

variable {α : Type*} {nil : α}

/-- The links starting at `c`, whose predecessor is `p`, thread the nodes of `l` and end in
`nil`. -/
def Chain (nil : α) (prev next : α → α) : α → α → List α → Prop
  | _, c, [] => c = nil
  | p, c, x :: l => c = x ∧ x ≠ nil ∧ prev x = p ∧ Chain nil prev next x (next x) l

/-- The nodes met by following `next` from `c`, at most `n` of them. -/
def follow [DecidableEq α] (nil : α) (next : α → α) : ℕ → α → List α
  | 0, _ => []
  | n + 1, c => if c = nil then [] else c :: follow nil next n (next c)

section Links

variable {prev next prev' next' : α → α} {p c x y : α} {l : List α}

/-- The null link is on no chain. -/
theorem Chain.nil_notMem (h : Chain nil prev next p c l) : nil ∉ l := by
  induction l generalizing p c with
  | nil => exact List.not_mem_nil
  | cons x l ih =>
    obtain ⟨-, hne, -, hrest⟩ := h
    exact List.not_mem_cons_of_ne_of_not_mem hne.symm (ih hrest)

/-- A chain only depends on the links of its own nodes. -/
theorem Chain.congr (h : Chain nil prev next p c l) (hprev : ∀ x ∈ l, prev' x = prev x)
    (hnext : ∀ x ∈ l, next' x = next x) : Chain nil prev' next' p c l := by
  induction l generalizing p c with
  | nil => exact h
  | cons x l ih =>
    obtain ⟨hc, hne, hp, hrest⟩ := h
    refine ⟨hc, hne, (hprev x List.mem_cons_self).trans hp, ?_⟩
    rw [hnext x List.mem_cons_self]
    exact ih hrest (fun y hy => hprev y (List.mem_cons_of_mem _ hy))
      fun y hy => hnext y (List.mem_cons_of_mem _ hy)

/-- Following the links of a chain gives its nodes. -/
theorem Chain.follow_eq [DecidableEq α] (h : Chain nil prev next p c l) {n : ℕ} (hn : l.length ≤ n) :
    follow nil next n c = l := by
  induction l generalizing p c n with
  | nil =>
    have hc : c = nil := h
    cases n <;> simp [follow, hc]
  | cons x l ih =>
    obtain ⟨rfl, hne, -, hrest⟩ := h
    cases n with
    | zero => exact absurd hn (by simp)
    | succ n =>
      rw [follow, if_neg hne, ih hrest (by simpa using hn)]

/-- Relinking a fresh node in front of a chain: the fresh node links to the old head, and the old
head, if any, links back. -/
theorem Chain.push (h : Chain nil prev next nil c l) (hx : x ∉ l) (hne : x ≠ nil)
    (hprev : prev' x = nil) (hnext : next' x = c) (hback : c ≠ nil → prev' c = x)
    (hprev' : ∀ y ∈ l, y ≠ c → prev' y = prev y) (hnext' : ∀ y ∈ l, next' y = next y)
    (hnodup : l.Nodup) : Chain nil prev' next' nil x (x :: l) := by
  refine ⟨rfl, hne, hprev, ?_⟩
  rw [hnext]
  cases l with
  | nil => exact h
  | cons y l =>
    obtain ⟨rfl, hyne, -, hrest⟩ := h
    have hfresh := (List.nodup_cons.mp hnodup).1
    refine ⟨rfl, hyne, hback hyne, ?_⟩
    rw [hnext' c List.mem_cons_self]
    refine hrest.congr (fun z hz => ?_) fun z hz => hnext' z (List.mem_cons_of_mem _ hz)
    exact hprev' z (List.mem_cons_of_mem _ hz) fun heq => hfresh (heq ▸ hz)

/-- The predecessor of a node is the node before the chain or on it. -/
theorem Chain.prev_mem (h : Chain nil prev next p c l) (hx : x ∈ l) : prev x ∈ p :: l := by
  induction l generalizing p c with
  | nil => cases hx
  | cons y l ih =>
    obtain ⟨-, -, hp, hrest⟩ := h
    rcases List.mem_cons.mp hx with rfl | hx
    · rw [hp]
      exact List.mem_cons_self
    · exact List.mem_cons_of_mem _ (ih hrest hx)

/-- The successor of a node, if any, is on the chain and links back. -/
theorem Chain.prev_next (h : Chain nil prev next p c l) (hx : x ∈ l) (hne : next x ≠ nil) :
    next x ∈ l ∧ prev (next x) = x := by
  induction l generalizing p c with
  | nil => cases hx
  | cons y l ih =>
    obtain ⟨-, -, -, hrest⟩ := h
    rcases List.mem_cons.mp hx with rfl | hx
    · cases l with
      | nil => exact absurd hrest hne
      | cons z l =>
        obtain ⟨hz, -, hzp, -⟩ := hrest
        rw [hz]
        exact ⟨List.mem_cons_of_mem _ List.mem_cons_self, hzp⟩
    · obtain ⟨hmem, hback⟩ := ih hrest hx
      exact ⟨List.mem_cons_of_mem _ hmem, hback⟩

/-- The predecessor recorded in a node is `p` exactly for the first node. -/
theorem Chain.prev_eq_iff (h : Chain nil prev next p c l) (hnodup : (p :: l).Nodup) (hx : x ∈ l) :
    prev x = p ↔ x = c := by
  obtain ⟨hpl, hnodup'⟩ := List.nodup_cons.mp hnodup
  cases l with
  | nil => cases hx
  | cons y l =>
    obtain ⟨rfl, -, hp, hrest⟩ := h
    refine ⟨fun hprev => ?_, fun heq => heq ▸ hp⟩
    rcases List.mem_cons.mp hx with hxc | hxl
    · exact hxc
    · exact absurd (hprev ▸ hrest.prev_mem hxl) hpl

/-- Unlinking the node `x` from a chain: its neighbours link to each other. -/
theorem Chain.erase [DecidableEq α] (h : Chain nil prev next p c l) (hnodup : (p :: l).Nodup)
    (hx : x ∈ l) (hnext : prev x ≠ nil → next' (prev x) = next x)
    (hprev : next x ≠ nil → prev' (next x) = prev x)
    (hnext' : ∀ y ∈ l, y ≠ prev x → next' y = next y)
    (hprev' : ∀ y ∈ l, y ≠ next x → prev' y = prev y) :
    Chain nil prev' next' p (if x = c then next x else c) (l.erase x) := by
  induction l generalizing p c with
  | nil => cases hx
  | cons y l ih =>
    obtain ⟨hpl, hnodup'⟩ := List.nodup_cons.mp hnodup
    have hchain := h
    obtain ⟨rfl, hyne, hp, hrest⟩ := h
    by_cases hxc : x = c
    · -- the first node goes: its successor becomes the head
      subst hxc
      rw [if_pos rfl, List.erase_cons_head]
      have hsame : ∀ z ∈ l, next' z = next z := fun z hz =>
        hnext' z (List.mem_cons_of_mem _ hz)
          fun heq => hpl (List.mem_cons_of_mem _ (by rwa [← hp, ← heq]))
      cases l with
      | nil => exact hrest
      | cons z l =>
        obtain ⟨hz, hzne, hzp, hrest'⟩ := hrest
        have hzl := (List.nodup_cons.mp (List.nodup_cons.mp hnodup').2).1
        refine ⟨hz, hzne, ?_, ?_⟩
        · rw [← hz, hprev (hz ▸ hzne), hp]
        · rw [hsame z List.mem_cons_self]
          refine hrest'.congr (fun w hw => ?_) fun w hw => hsame w (List.mem_cons_of_mem _ hw)
          exact hprev' w (List.mem_cons_of_mem _ (List.mem_cons_of_mem _ hw))
            fun heq => hzl (hz ▸ heq ▸ hw)
    · have hxl : x ∈ l := (List.mem_cons.mp hx).resolve_left hxc
      rw [if_neg hxc, List.erase_cons_tail (by simpa using Ne.symm hxc)]
      have hrec := ih hrest hnodup' hxl (fun z hz => hnext' z (List.mem_cons_of_mem _ hz))
        fun z hz => hprev' z (List.mem_cons_of_mem _ hz)
      -- no link of the list leads back to its first node
      have hcnext : c ≠ next x := by
        intro heq
        have hback := (hchain.prev_next hx (heq ▸ hyne)).2
        rw [← heq, hp] at hback
        exact hpl (hback ▸ hx)
      refine ⟨rfl, hyne, ?_, ?_⟩
      · rw [hprev' c List.mem_cons_self hcnext, hp]
      · have hhead := hrest.prev_eq_iff hnodup' hxl
        by_cases hxn : x = next c
        · have hpx := hhead.mpr hxn
          rw [if_pos hxn] at hrec
          rwa [← hpx, hnext (hpx ▸ hyne), hpx]
        · rw [if_neg hxn] at hrec
          have hcp : c ≠ prev x := fun heq => hxn (hhead.mp heq.symm)
          rwa [hnext' c List.mem_cons_self hcp]

end Links

end LinkedList
