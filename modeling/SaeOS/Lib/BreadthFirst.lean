import Mathlib.Data.Fintype.Card
import Mathlib.Data.List.Nodup

/-!
# Breadth-first search for shortest paths

A search from one node along the successors of inner nodes, where goals end paths and every node is visited
once. The path found to a goal is a shortest one, and every goal that can be reached is found.
-/

namespace BreadthFirst

/-- What the search does at a node. -/
inductive Role where
  /-- A path to the node is found. -/
  | goal
  /-- The search goes on from the node. -/
  | inner
  | dead
deriving DecidableEq

/-- The paths are from the start to their last node. -/
structure State (α : Type*) where
  found : List (List α)
  visited : List α
  queue : List (List α)

variable {α : Type*} [DecidableEq α] (next : α → List α) (role : α → Role)

/-- Visit one successor of the last node of a path. -/
def visit (path : List α) (s : State α) (source : α) : State α :=
  if source ∈ s.visited then s
  else
    let visited := s.visited ++ [source]
    match role source with
    | .goal => { s with visited, found := s.found ++ [path ++ [source]] }
    | .inner => { s with visited, queue := s.queue ++ [path ++ [source]] }
    | .dead => { s with visited }

/-- Visit all successors of the last node of a path. -/
def expand (path : List α) (s : State α) : State α :=
  (path.getLast?.elim [] next).foldl (visit role path) s

section Termination

variable [Fintype α]

/-- The nodes not visited yet, and the paths to go on from. -/
def State.work (s : State α) : ℕ :=
  (Finset.univ.filter (· ∉ s.visited)).card + s.queue.length

theorem work_visit (path : List α) (s : State α) (source : α) : (visit role path s source).work ≤ s.work := by
  rw [visit]
  split_ifs with hvisited
  · exact le_rfl
  · have hfewer : (Finset.univ.filter (· ∉ s.visited ++ [source])).card < (Finset.univ.filter (· ∉ s.visited)).card := by
      refine Finset.card_lt_card (Finset.ssubset_iff_of_subset ?_ |>.mpr ⟨source, by simpa using hvisited, by simp⟩)
      intro node
      simp only [Finset.mem_filter, List.mem_append, not_or]
      exact fun h => ⟨h.1, h.2.1⟩
    cases role source <;> simp only [State.work, List.length_append, List.length_singleton] <;> omega

theorem work_expand (path : List α) (s : State α) : (expand next role path s).work ≤ s.work := by
  rw [expand]
  induction path.getLast?.elim [] next generalizing s with
  | nil => exact le_rfl
  | cons source sources ih => exact (ih _).trans (work_visit role path s source)

end Termination

/-- The search: paths are taken from the front of the queue. -/
def search [Fintype α] (s : State α) : List (List α) :=
  match _ : s.queue with
  | [] => s.found
  | path :: queue => search (expand next role path { s with queue })
termination_by s.work
decreasing_by
  refine (work_expand next role path { s with queue }).trans_lt ?_
  simp only [State.work, ‹s.queue = _›, List.length_cons]
  omega

/-- A path from a node to each goal that can be reached from it. -/
def paths [Fintype α] (start : α) : List (List α) :=
  search next role ⟨[], [start], [[start]]⟩

/-! ## Walks -/

/-- A path from the start to a node, with inner nodes between them. -/
inductive Walk (start : α) : List α → α → Prop
  | single : Walk start [start] start
  | snoc {path : List α} {node source : α} (walk : Walk start path node)
    (hnode : node = start ∨ role node = .inner) (hsource : source ∈ next node) :
    Walk start (path ++ [source]) source

variable {next role} {start node : α} {path : List α}

omit [DecidableEq α] in
theorem Walk.getLast? (h : Walk next role start path node) : path.getLast? = some node := by
  cases h with
  | single => rfl
  | snoc _ _ _ => exact List.getLast?_concat

/-! ## The invariant of the search -/

/-- A path that the search has made, with the level at which its last node was visited. -/
structure Made (next : α → List α) (role : α → Role) (start : α) (level : α → ℕ) (visited path : List α)
    (node : α) : Prop where
  walk : Walk next role start path node
  nodup : path.Nodup
  visited : ∀ node ∈ path, node ∈ visited
  length : path.length = level node + 1

/-- The search has visited every node at its distance, up to the paths in the queue and the nodes that are
being expanded: none is further than one step from level `d`. -/
structure Inv (next : α → List α) (role : α → Role) (start : α) (level : α → ℕ) (d : ℕ) (busy : α → Prop)
    (s : State α) : Prop where
  begins : start ∈ s.visited ∧ level start = 0
  found : ∀ path ∈ s.found, ∃ node, role node = .goal ∧ Made next role start level s.visited path node
  queue : ∀ path ∈ s.queue, ∃ node, (node = start ∨ role node = .inner) ∧
    Made next role start level s.visited path node
  goals : ∀ node ∈ s.visited, role node = .goal →
    ∃ path ∈ s.found, Made next role start level s.visited path node
  closed : ∀ node ∈ s.visited, node = start ∨ role node = .inner →
    (∃ path ∈ s.queue, path.getLast? = some node) ∨ busy node ∨
      ∀ source ∈ next node, source ∈ s.visited ∧ level source ≤ level node + 1
  sorted : s.queue.Pairwise (·.length ≤ ·.length)
  low : ∀ path ∈ s.queue, d + 1 ≤ path.length
  high : ∀ node ∈ s.visited, level node ≤ d + 1

variable {level level' : α → ℕ} {d : ℕ} {busy : α → Prop} {s : State α} {visited visited' : List α} {source : α}

omit [DecidableEq α] in
/-- A path stays what it is when more nodes are visited. -/
theorem Made.mono (h : Made next role start level visited path node) (hsub : visited ⊆ visited')
    (hlevel : ∀ node ∈ visited, level' node = level node) (hnode : node ∈ visited) :
    Made next role start level' visited' path node :=
  ⟨h.walk, h.nodup, fun other hmem => hsub (h.visited other hmem), by rw [h.length, hlevel node hnode]⟩

omit [DecidableEq α] in
theorem Made.mem_visited (h : Made next role start level visited path node) : node ∈ visited :=
  h.visited node (List.mem_of_getLast? h.walk.getLast?)

omit [DecidableEq α] in
/-- One step on from a node of level `d` to a node not visited before. -/
theorem Made.snoc (h : Made next role start level visited path node) (hnode : node = start ∨ role node = .inner)
    (hsource : source ∈ next node) (hnew : source ∉ visited) (hsub : visited ⊆ visited') (hmem : source ∈ visited')
    (hlevel : level' source = level node + 1) : Made next role start level' visited' (path ++ [source]) source where
  walk := h.walk.snoc hnode hsource
  nodup := by
    rw [List.nodup_append]
    refine ⟨h.nodup, List.nodup_singleton _, fun other hother last hlast => ?_⟩
    rw [List.mem_singleton.mp hlast]
    rintro rfl
    exact hnew (h.visited other hother)
  visited other hother := by
    obtain hother | hother := List.mem_append.mp hother
    · exact hsub (h.visited other hother)
    · rwa [List.mem_singleton.mp hother]
  length := by
    rw [List.length_append, h.length, hlevel]
    rfl

/-- Visiting a successor of a node of level `d`. -/
theorem Inv.visit (h : Inv next role start level d busy s) (hmade : Made next role start level s.visited path node)
    (hnode : node = start ∨ role node = .inner) (hd : level node = d) (hsource : source ∈ next node) :
    ∃ level', Inv next role start level' d busy (visit role path s source) ∧
      source ∈ (visit role path s source).visited ∧ s.visited ⊆ (visit role path s source).visited ∧
      ∀ node ∈ s.visited, level' node = level node := by
  rw [BreadthFirst.visit]
  by_cases hnew : source ∈ s.visited
  · rw [if_pos hnew]
    exact ⟨level, h, hnew, List.Subset.refl _, fun _ _ => rfl⟩
  rw [if_neg hnew]
  -- the new node is one level further
  set level' := Function.update level source (d + 1) with hlevel'
  have hsame : ∀ node ∈ s.visited, level' node = level node := by
    intro node hmem
    rw [hlevel', Function.update_of_ne]
    rintro rfl
    exact hnew hmem
  have hsourceLevel : level' source = level node + 1 := by
    rw [hlevel', Function.update_self, hd]
  have hsub : s.visited ⊆ s.visited ++ [source] := List.subset_append_left _ _
  have hmem : source ∈ s.visited ++ [source] := List.mem_append_right _ List.mem_cons_self
  have hmono {path : List α} {node : α} (hmade : Made next role start level s.visited path node) :
      Made next role start level' (s.visited ++ [source]) path node :=
    hmade.mono hsub hsame hmade.mem_visited
  have hlonger := hmade.snoc hnode hsource hnew hsub hmem hsourceLevel
  have hhigh : ∀ node ∈ s.visited ++ [source], level' node ≤ d + 1 := by
    intro node hnode
    obtain hnode | hnode := List.mem_append.mp hnode
    · rw [hsame node hnode]
      exact h.high node hnode
    · rw [List.mem_singleton.mp hnode, hsourceLevel, hd]
  have hclosed : ∀ node ∈ s.visited, node = start ∨ role node = .inner →
      (∃ path ∈ s.queue, path.getLast? = some node) ∨ busy node ∨
        ∀ source' ∈ next node, source' ∈ s.visited ++ [source] ∧ level' source' ≤ level' node + 1 := by
    intro node hnode hinner
    refine (h.closed node hnode hinner).imp_right (Or.imp_right fun hall source' hsource' => ?_)
    obtain ⟨hvisited, hle⟩ := hall source' hsource'
    exact ⟨hsub hvisited, by rwa [hsame _ hvisited, hsame _ hnode]⟩
  have hbegins : start ∈ s.visited ++ [source] ∧ level' start = 0 :=
    ⟨hsub h.begins.1, (hsame start h.begins.1).trans h.begins.2⟩
  have hfound : ∀ path ∈ s.found, ∃ node, role node = .goal ∧
      Made next role start level' (s.visited ++ [source]) path node := fun path hpath =>
    (h.found path hpath).imp fun _ => And.imp_right hmono
  have hqueue : ∀ path ∈ s.queue, ∃ node, (node = start ∨ role node = .inner) ∧
      Made next role start level' (s.visited ++ [source]) path node := fun path hpath =>
    (h.queue path hpath).imp fun _ => And.imp_right hmono
  have hgoals : ∀ node ∈ s.visited, role node = .goal →
      ∃ path ∈ s.found, Made next role start level' (s.visited ++ [source]) path node := fun node hnode hgoal =>
    (h.goals node hnode hgoal).imp fun _ => And.imp_right hmono
  have hnotStart : source ≠ start := by
    rintro rfl
    exact hnew h.begins.1
  cases hrole : role source with
  | goal =>
    refine ⟨level', ⟨hbegins, fun path' hpath => ?_, hqueue, fun node hnode hgoal => ?_, fun node hnode hinner => ?_,
      h.sorted, h.low, hhigh⟩, hmem, hsub, hsame⟩
    · obtain hpath | hpath := List.mem_append.mp hpath
      · exact hfound path' hpath
      · rw [List.mem_singleton.mp hpath]
        exact ⟨source, hrole, hlonger⟩
    · obtain hnode | hnode := List.mem_append.mp hnode
      · exact (hgoals node hnode hgoal).imp fun _ => And.imp_left (List.mem_append_left _)
      · rw [List.mem_singleton.mp hnode]
        exact ⟨_, List.mem_append_right _ List.mem_cons_self, hlonger⟩
    · obtain hnode | hnode := List.mem_append.mp hnode
      · exact hclosed node hnode hinner
      · rw [List.mem_singleton.mp hnode] at hinner
        exact absurd (hinner.resolve_left hnotStart) (by rw [hrole]; decide)
  | inner =>
    refine ⟨level', ⟨hbegins, hfound, fun path' hpath => ?_, fun node hnode hgoal => ?_, fun node hnode hinner => ?_,
      ?_, fun path' hpath => ?_, hhigh⟩, hmem, hsub, hsame⟩
    · obtain hpath | hpath := List.mem_append.mp hpath
      · exact hqueue path' hpath
      · rw [List.mem_singleton.mp hpath]
        exact ⟨source, .inr hrole, hlonger⟩
    · obtain hnode | hnode := List.mem_append.mp hnode
      · exact hgoals node hnode hgoal
      · rw [List.mem_singleton.mp hnode, hrole] at hgoal
        cases hgoal
    · obtain hnode | hnode := List.mem_append.mp hnode
      · exact (hclosed node hnode hinner).imp_left fun ⟨path', hpath, hlast⟩ =>
          ⟨path', List.mem_append_left _ hpath, hlast⟩
      · rw [List.mem_singleton.mp hnode]
        exact .inl ⟨_, List.mem_append_right _ List.mem_cons_self, List.getLast?_concat⟩
    · -- the new path is as long as any in the queue
      refine List.pairwise_append.mpr ⟨h.sorted, List.pairwise_singleton _ _, fun path' hpath longer hlonger' => ?_⟩
      obtain ⟨last, -, hmadeLast⟩ := h.queue path' hpath
      have hle := h.high last hmadeLast.mem_visited
      rw [List.mem_singleton.mp hlonger', hmadeLast.length, hlonger.length, hsourceLevel, hd]
      omega
    · obtain hpath | hpath := List.mem_append.mp hpath
      · exact h.low path' hpath
      · rw [List.mem_singleton.mp hpath, hlonger.length, hsourceLevel, hd]
        omega
  | dead =>
    refine ⟨level', ⟨hbegins, hfound, hqueue, fun node hnode hgoal => ?_, fun node hnode hinner => ?_,
      h.sorted, h.low, hhigh⟩, hmem, hsub, hsame⟩
    · obtain hnode | hnode := List.mem_append.mp hnode
      · exact hgoals node hnode hgoal
      · rw [List.mem_singleton.mp hnode, hrole] at hgoal
        cases hgoal
    · obtain hnode | hnode := List.mem_append.mp hnode
      · exact hclosed node hnode hinner
      · rw [List.mem_singleton.mp hnode] at hinner
        exact absurd (hinner.resolve_left hnotStart) (by rw [hrole]; decide)

/-- Visiting successors one after the other. -/
theorem Inv.foldl_visit (h : Inv next role start level d busy s)
    (hmade : Made next role start level s.visited path node) (hnode : node = start ∨ role node = .inner)
    (hd : level node = d) {sources : List α} (hsources : sources ⊆ next node) :
    ∃ level', Inv next role start level' d busy (sources.foldl (BreadthFirst.visit role path) s) ∧
      (∀ source ∈ sources, source ∈ (sources.foldl (BreadthFirst.visit role path) s).visited) ∧
      s.visited ⊆ (sources.foldl (BreadthFirst.visit role path) s).visited ∧
      ∀ node ∈ s.visited, level' node = level node := by
  induction sources generalizing s level with
  | nil => exact ⟨level, h, (by simp), List.Subset.refl _, fun _ _ => rfl⟩
  | cons source sources ih =>
    obtain ⟨hsource, hsources⟩ := List.cons_subset.mp hsources
    obtain ⟨level₁, hfirst, hvisited, hsub, hsame⟩ := h.visit hmade hnode hd hsource
    obtain ⟨level₂, hrest, hall, hsub', hsame'⟩ := ih hfirst (hmade.mono hsub hsame hmade.mem_visited)
      ((hsame node hmade.mem_visited).trans hd) hsources
    refine ⟨level₂, hrest, fun other hother => ?_, List.Subset.trans hsub hsub', fun other hother => ?_⟩
    · obtain rfl | hother := List.mem_cons.mp hother
      · exact hsub' hvisited
      · exact hall other hother
    · exact (hsame' other (hsub hother)).trans (hsame other hother)

/-- Nothing is being expanded. -/
def Settled (next : α → List α) (role : α → Role) (start : α) (s : State α) : Prop :=
  ∃ level d, Inv next role start level d (fun _ => False) s

/-- A path from the front of the queue is expanded. -/
theorem Settled.expand {queue : List (List α)} (h : Settled next role start s) (hqueue : s.queue = path :: queue) :
    Settled next role start (BreadthFirst.expand next role path { s with queue }) := by
  obtain ⟨level, d, h⟩ := h
  obtain ⟨node, hnode, hmade⟩ := h.queue path (by rw [hqueue]; exact List.mem_cons_self)
  have hsorted := h.sorted
  rw [hqueue, List.pairwise_cons] at hsorted
  have hle : d ≤ level node := by
    have hlow := h.low path (by rw [hqueue]; exact List.mem_cons_self)
    rw [hmade.length] at hlow
    omega
  -- the node of the path is the one that is expanded
  have hbusy : Inv next role start level (level node) (· = node) { s with queue } := by
    refine ⟨h.begins, h.found, fun path' hpath => h.queue path' ?_, h.goals, fun other hother hinner => ?_,
      hsorted.2, fun path' hpath => ?_, fun other hother => (h.high other hother).trans (by omega)⟩
    · rw [hqueue]
      exact List.mem_cons_of_mem _ hpath
    · obtain ⟨path', hpath, hlast⟩ | hfalse | hall := h.closed other hother hinner
      · rw [hqueue] at hpath
        obtain rfl | hpath := List.mem_cons.mp hpath
        · exact .inr (.inl (Option.some.inj (hlast.symm.trans hmade.walk.getLast?)))
        · exact .inl ⟨path', hpath, hlast⟩
      · exact hfalse.elim
      · exact .inr (.inr hall)
    · rw [← hmade.length]
      exact hsorted.1 path' hpath
  have hsources : path.getLast?.elim [] next = next node := by
    rw [hmade.walk.getLast?]
    rfl
  obtain ⟨level', hdone, hall, -, hsame⟩ :=
    hbusy.foldl_visit hmade hnode rfl (List.Subset.refl (next node))
  rw [BreadthFirst.expand, hsources]
  refine ⟨level', level node, hdone.begins, hdone.found, hdone.queue, hdone.goals, fun other hother hinner => ?_,
    hdone.sorted, hdone.low, hdone.high⟩
  obtain hpath | rfl | hclosed := hdone.closed other hother hinner
  · exact .inl hpath
  · refine .inr (.inr fun source hsource => ⟨hall source hsource, ?_⟩)
    rw [hsame other hmade.mem_visited]
    exact hdone.high source (hall source hsource)
  · exact .inr (.inr hclosed)

/-! ## What the search finds -/

/-- The paths are shortest walks to goals, and there is one to every goal that can be reached. -/
structure Finds (next : α → List α) (role : α → Role) (start : α) (found : List (List α)) : Prop where
  shortest : ∀ path ∈ found, path.Nodup ∧ ∃ goal, role goal = .goal ∧ Walk next role start path goal ∧
    ∀ other, Walk next role start other goal → path.length ≤ other.length
  complete : ∀ path goal, Walk next role start path goal → role goal = .goal →
    ∃ other ∈ found, Walk next role start other goal

omit [DecidableEq α] in
/-- With nothing in the queue, every node that can be reached has been visited at its distance. -/
theorem Settled.finds (h : Settled next role start s) (hqueue : s.queue = []) : Finds next role start s.found := by
  obtain ⟨level, d, h⟩ := h
  have hreached {path : List α} {node : α} (hwalk : Walk next role start path node) :
      node ∈ s.visited ∧ level node + 1 ≤ path.length := by
    induction hwalk with
    | single => exact ⟨h.begins.1, by rw [h.begins.2]; exact le_rfl⟩
    | snoc walk hnode hsource ih =>
      obtain ⟨hvisited, hle⟩ := ih
      obtain ⟨path', hpath, -⟩ | hfalse | hall := h.closed _ hvisited hnode
      · rw [hqueue] at hpath
        cases hpath
      · exact hfalse.elim
      · obtain ⟨hsourceVisited, hlevel⟩ := hall _ hsource
        refine ⟨hsourceVisited, ?_⟩
        rw [List.length_append, List.length_singleton]
        omega
  refine ⟨fun path hpath => ?_, fun path goal hwalk hgoal => ?_⟩
  · obtain ⟨goal, hgoal, hmade⟩ := h.found path hpath
    refine ⟨hmade.nodup, goal, hgoal, hmade.walk, fun other hother => ?_⟩
    rw [hmade.length]
    exact (hreached hother).2
  · obtain ⟨other, hother, hmade⟩ := h.goals goal (hreached hwalk).1 hgoal
    exact ⟨other, hother, hmade.walk⟩

theorem Settled.search [Fintype α] (h : Settled next role start s) :
    Finds next role start (BreadthFirst.search next role s) := by
  fun_induction BreadthFirst.search next role s with
  | case1 s hqueue => exact h.finds hqueue
  | case2 s path queue hqueue ih => exact ih (h.expand hqueue)

/-- The search from a node that is not itself a goal. -/
theorem finds_paths [Fintype α] (hstart : role start ≠ .goal) :
    Finds next role start (paths next role start) := by
  refine Settled.search ⟨fun _ => 0, 0, ⟨List.mem_cons_self, rfl⟩, (by simp), fun path hpath => ?_,
    fun node hnode hgoal => ?_, fun node hnode _ => ?_, List.pairwise_singleton _ _, fun path hpath => ?_, fun _ _ => Nat.zero_le _⟩
  · rw [List.mem_singleton.mp hpath]
    exact ⟨start, .inl rfl, .single, List.nodup_singleton _, fun _ h => h, rfl⟩
  · rw [List.mem_singleton.mp hnode] at hgoal
    exact absurd hgoal hstart
  · rw [List.mem_singleton.mp hnode]
    exact .inl ⟨[start], List.mem_cons_self, rfl⟩
  · rw [List.mem_singleton.mp hpath]
    exact le_rfl

end BreadthFirst
