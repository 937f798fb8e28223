import Mathlib.Data.Fintype.Card

/-! Depth-first search for a cycle through its start. -/

namespace BlockchainPG.Lib

open List

variable {V : Type u} {E : Type v} {σ : Type w}

/-- The nodes that a search has come to, in order, and what it has noted on its way. -/
structure Seen (V : Type u) (σ : Type w) where
  visited : List V
  noted : σ

section Search

variable (out : V → List E) (target : E → V) (note : E → σ → σ)

def followEach (visit : V → Seen V σ → Option (Option (List E) × Seen V σ)) :
    List E → Seen V σ → Option (Option (List E) × Seen V σ)
  | [], seen => some (none, seen)
  | edge :: edges, seen =>
    match visit (target edge) ⟨seen.visited, note edge seen.noted⟩ with
    | none => none
    | some (some path, seen) => some (some (edge :: path), seen)
    | some (none, seen) => followEach visit edges seen

/-- The search: the way on to the start, which is the first node seen. -/
def findCycle [DecidableEq V] : Nat → V → Seen V σ → Option (Option (List E) × Seen V σ)
  | 0, _, _ => none
  | fuel + 1, v, seen =>
    if v ∈ seen.visited then some (if seen.visited.head? = some v then some [] else none, seen)
    else followEach target note (findCycle fuel) (out v) ⟨seen.visited ++ [v], seen.noted⟩

/-- A way along edges. -/
inductive Way : V → List E → V → Prop
  | here (v : V) : Way v [] v
  | next (mem : edge ∈ out v) (rest : Way (target edge) path w) : Way v (edge :: path) w

/-- There is an edge between two nodes. -/
def Linked (v w : V) : Prop := ∃ edge ∈ out v, target edge = w

end Search

variable {out : V → List E} {target : E → V} {note : E → σ → σ}

theorem Way.transGen (way : Way out target v path w) (nonempty : path ≠ []) :
    Relation.TransGen (Linked out target) v w := by
  induction way with
  | here v => exact absurd rfl nonempty
  | @next v edge path w mem rest ih =>
    cases path with
    | nil =>
      cases rest
      exact .single ⟨edge, mem, rfl⟩
    | cons second path => exact .head ⟨edge, mem, rfl⟩ (ih (cons_ne_nil second path))

/-- The edges of what has been seen in a search lead to what has been seen, and not to the start. -/
def Closed (out : V → List E) (target : E → V) (start : V) (seen seen' : Seen V σ) : Prop :=
  ∀ u ∈ seen'.visited, u ∉ seen.visited → ∀ edge ∈ out u, target edge ∈ seen'.visited ∧ target edge ≠ start

theorem head_stays {before after : List V} (stays : before <+: after) (head : before.head? = some v) :
    after.head? = some v := by
  obtain ⟨rest, rfl⟩ := stays
  grind

/-- Following the edges of a node in turn, when each visit does what it should. -/
theorem followEach_spec {visit : V → Seen V σ → Option (Option (List E) × Seen V σ)}
    (visits : ∀ v seen found seen', seen.visited.head? = some start → visit v seen = some (found, seen') →
      seen.visited <+: seen'.visited ∧ (∀ path, found = some path → Way out target v path start) ∧
        (found = none → v ∈ seen'.visited ∧ v ≠ start ∧ Closed out target start seen seen'))
    (edges : List E) (seen : Seen V σ) (head : seen.visited.head? = some start)
    (result : followEach target note visit edges seen = some (found, seen')) : seen.visited <+: seen'.visited ∧
      (∀ path, found = some path → ∃ edge ∈ edges, ∃ rest, path = edge :: rest ∧
        Way out target (target edge) rest start) ∧
      (found = none → (∀ edge ∈ edges, target edge ∈ seen'.visited ∧ target edge ≠ start) ∧
        Closed out target start seen seen') := by
  induction edges generalizing seen with
  | nil =>
    obtain ⟨rfl, rfl⟩ := Prod.mk.inj (Option.some.inj result)
    exact ⟨prefix_refl _, nofun,
      fun _ => ⟨fun _ no => absurd no not_mem_nil, fun u there absent => absurd there absent⟩⟩
  | cons edge edges ih =>
    rw [followEach] at result
    cases visited : visit (target edge) ⟨seen.visited, note edge seen.noted⟩ with
    | none =>
      rw [visited] at result
      cases result
    | some outcome =>
      obtain ⟨found', middle⟩ := outcome
      obtain ⟨stays, way, closed⟩ := visits (target edge) ⟨seen.visited, note edge seen.noted⟩ found' middle head
        visited
      rw [visited] at result
      cases found' with
      | some path =>
        grind
      | none =>
        obtain ⟨there, -, closed⟩ := closed rfl
        obtain ⟨stays', ways, closed'⟩ := ih middle (head_stays stays head) result
        refine ⟨stays.trans stays', fun path same => ?_, fun no => ?_⟩
        · grind
        · obtain ⟨-, closed'⟩ := closed' no
          refine ⟨fun edge' mem => ?_, fun u there absent => ?_⟩
          · grind
          · by_cases early : u ∈ middle.visited
            · intro edge' mem
              obtain ⟨inside, other'⟩ := closed u early absent edge' mem
              exact ⟨stays'.subset inside, other'⟩
            · exact closed' u there early

theorem followEach_append (visit : V → Seen V σ → Option (Option (List E) × Seen V σ)) (first second : List E)
    (seen : Seen V σ) : followEach target note visit (first ++ second) seen =
      match followEach target note visit first seen with
      | none => none
      | some (some path, seen) => some (some path, seen)
      | some (none, seen) => followEach target note visit second seen := by
  induction first generalizing seen with
  | nil => rfl
  | cons edge first ih =>
    grind [followEach]

theorem followEach_total (visits : ∀ v seen, seen.visited.Nodup → enough ≤ seen.visited.length →
      ∃ found seen', visit v seen = some (found, seen') ∧ seen'.visited.Nodup ∧
        seen.visited.length ≤ seen'.visited.length)
    (edges : List E) (seen : Seen V σ) (nodup : seen.visited.Nodup) (long : enough ≤ seen.visited.length) :
    ∃ found seen', followEach target note visit edges seen = some (found, seen') ∧ seen'.visited.Nodup ∧
      seen.visited.length ≤ seen'.visited.length := by
  induction edges generalizing seen with
  | nil => exact ⟨none, seen, rfl, nodup, Nat.le_refl _⟩
  | cons edge edges ih =>
    obtain ⟨found, middle, visited, nodup', longer⟩ :=
      visits (target edge) ⟨seen.visited, note edge seen.noted⟩ nodup long
    grind [followEach]

variable [DecidableEq V]

theorem findCycle_spec (fuel : Nat) (v : V) (seen : Seen V σ) (head : (seen.visited ++ [v]).head? = some start)
    (result : findCycle out target note fuel v seen = some (found, seen')) : seen.visited <+: seen'.visited ∧
      (∀ path, found = some path → Way out target v path start ∧ (seen.visited = [] → path ≠ [])) ∧
      (found = none → v ∈ seen'.visited ∧ (seen.visited ≠ [] → v ≠ start) ∧ Closed out target start seen seen') := by
  induction fuel generalizing v seen found seen' with
  | zero => cases result
  | succ fuel ih =>
    rw [findCycle] at result
    split at result
    · next there =>
      obtain ⟨first, rest, split⟩ : ∃ first rest, seen.visited = first :: rest :=
        exists_cons_of_ne_nil (ne_nil_of_mem there)
      rw [split, cons_append, head?_cons] at head
      obtain ⟨rfl, rfl⟩ := Prod.mk.inj (Option.some.inj result)
      rw [split, head?_cons, head]
      refine ⟨prefix_refl _, fun path found => ?_, fun found => ⟨split ▸ there, fun _ same => ?_,
        fun u here absent => absurd here absent⟩⟩
      · split at found
        · next same =>
          obtain rfl := Option.some.inj same
          obtain rfl := Option.some.inj found
          exact ⟨.here _, nofun⟩
        · cases found
      · rw [same, if_pos rfl] at found
        cases found
    · next absent =>
      have visits : ∀ w (before : Seen V σ) found after, before.visited.head? = some start →
          findCycle out target note fuel w before = some (found, after) →
          before.visited <+: after.visited ∧ (∀ path, found = some path → Way out target w path start) ∧
            (found = none → w ∈ after.visited ∧ w ≠ start ∧ Closed out target start before after) := by
        intro w before found after first visit
        have nonempty : before.visited ≠ [] := by
          grind
        obtain ⟨stays, ways, closed⟩ := ih w before (head_stays (prefix_append ..) first) visit
        grind
      obtain ⟨stays, ways, closed⟩ := followEach_spec visits (out v) _ head result
      have early := (prefix_append seen.visited [v]).trans stays
      refine ⟨early, fun path same => ?_, fun same => ⟨?_, fun nonempty own => ?_, fun u there unseen => ?_⟩⟩
      · obtain ⟨edge, mem, rest, rfl, way⟩ := ways path same
        exact ⟨.next mem way, fun _ => cons_ne_nil edge rest⟩
      · exact stays.subset (mem_append_right _ mem_cons_self)
      · subst own
        obtain ⟨first, rest, split⟩ := exists_cons_of_ne_nil nonempty
        rw [split, cons_append, head?_cons, Option.some.injEq] at head
        rw [split, head] at absent
        exact absent mem_cons_self
      · obtain ⟨edges, closed⟩ := closed same
        by_cases own : u = v
        · rw [own]
          exact edges
        · refine closed u there fun no => ?_
          rcases mem_append.mp no with no | no
          · exact unseen no
          · exact own (mem_singleton.mp no)

/-- A search that finds nothing shows that there is no cycle through its start. -/
theorem findCycle_none (result : findCycle out target note fuel v ⟨[], noted⟩ = some (none, seen)) :
    ¬ Relation.TransGen (Linked out target) v v := by
  obtain ⟨-, -, closed⟩ := findCycle_spec fuel v ⟨[], noted⟩ rfl result
  obtain ⟨there, -, closed⟩ := closed rfl
  have all : ∀ w, Relation.TransGen (Linked out target) v w → w ∈ seen.visited ∧ w ≠ v := by
    intro w linked
    induction linked with
    | single link =>
      obtain ⟨edge, mem, rfl⟩ := link
      exact closed v there not_mem_nil edge mem
    | tail before link ih =>
      obtain ⟨edge, mem, rfl⟩ := link
      exact closed _ ih.1 not_mem_nil edge mem
  exact fun cycle => (all v cycle).2 rfl

theorem findCycle_some (result : findCycle out target note fuel v ⟨[], noted⟩ = some (some path, seen)) :
    Way out target v path v ∧ path ≠ [] := by
  obtain ⟨-, ways, -⟩ := findCycle_spec fuel v ⟨[], noted⟩ rfl result
  grind

/-- Every node is visited once, so that a fuel of one more than there are nodes is enough. -/
theorem findCycle_total [Fintype V] (fuel : Nat) (v : V) (seen : Seen V σ) (nodup : seen.visited.Nodup)
    (enough : Fintype.card V < fuel + seen.visited.length) :
    ∃ found seen', findCycle out target note fuel v seen = some (found, seen') ∧ seen'.visited.Nodup ∧
      seen.visited.length ≤ seen'.visited.length := by
  induction fuel generalizing v seen with
  | zero =>
    have few := nodup.length_le_card
    omega
  | succ fuel ih =>
    rw [findCycle]
    split
    · exact ⟨_, seen, rfl, nodup, Nat.le_refl _⟩
    · next absent =>
      have nodup' : (seen.visited ++ [v]).Nodup := by
        grind
      have length : (seen.visited ++ [v]).length = seen.visited.length + 1 := length_append
      obtain ⟨found, seen', result, nodup'', longer⟩ := followEach_total
        (fun w before nodup long => ih w before nodup (show Fintype.card V < fuel + before.visited.length by omega))
        (out v) ⟨seen.visited ++ [v], seen.noted⟩ nodup' (show Fintype.card V + 1 - fuel ≤ _ by
          simp only [length]
          omega)
      refine ⟨found, seen', result, nodup'', ?_⟩
      simp only [length] at longer
      omega

end BlockchainPG.Lib
