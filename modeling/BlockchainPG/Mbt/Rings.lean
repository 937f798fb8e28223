import BlockchainPG.Mbt.Tree

/-! The sibling lists of all levels of a tree, over one set of links. -/

namespace BlockchainPG.Mbt

open Lib Function List

/-- `list[k]` links the given nodes of level `k` from left to right. -/
def Rings (links : Links Link) (nodes : Nat → List Addr) : Prop :=
  ∀ k < BPLUS_MAX_LEVEL, Ring links (.head k) ((nodes k).map .node)

def Levels (nodes : Nat → List Addr) : Prop := ∀ i j, i ≠ j → ∀ a ∈ nodes i, a ∉ nodes j

def replaceNode (nodes : Nat → List Addr) (k : Nat) (a : Addr) (run : List Addr) : Nat → List Addr :=
  update nodes k ((nodes k).flatMap fun b => if b = a then run else [b])

variable {links : Links Link} {nodes : Nat → List Addr} {front back run : List Addr}

theorem flatMap_replace_absent {list : List Addr} (absent : a ∉ list) :
    (list.flatMap fun b => if b = a then run else [b]) = list := by
  induction list with
  | nil => rfl
  | cons b list ih =>
    grind

theorem replaceNode_eq (once : (nodes k).Nodup) (list : nodes k = front ++ a :: back) :
    replaceNode nodes k a run = update nodes k (front ++ run ++ back) := by
  rw [list, nodup_middle, nodup_cons, mem_append, not_or] at once
  rw [replaceNode, list, flatMap_append, flatMap_cons, if_pos rfl,
    flatMap_replace_absent once.1.1, flatMap_replace_absent once.1.2, append_assoc]

theorem replaceNode_self (nodes : Nat → List Addr) (k : Nat) (a : Addr) : replaceNode nodes k a [a] = nodes := by
  grind [replaceNode, flatMap_singleton', update_eq_self]

theorem mem_replaceNode (mem : b ∈ replaceNode nodes k a run j) : (j = k ∧ b ∈ run) ∨ b ∈ nodes j := by
  by_cases here : j = k
  · subst here
    rw [replaceNode, update_self, mem_flatMap] at mem
    grind
  · rw [replaceNode, update_of_ne here] at mem
    exact Or.inr mem

theorem Levels.replaceNode (levels : Levels nodes) (present : a ∈ nodes k)
    (known : ∀ b ∈ run, b = a ∨ ∀ j, b ∉ nodes j) : Levels (replaceNode nodes k a run) := by
  have own : ∀ b ∈ run, ∀ j, b ∈ nodes j → j = k := by
    intro b inside j mem
    by_contra ne
    rcases known b inside with rfl | fresh
    · exact levels j k ne b mem present
    · exact fresh j mem
  intro i j ne b left right
  rcases mem_replaceNode left with ⟨rfl, inside⟩ | mem
  · grind [mem_replaceNode]
  · rcases mem_replaceNode right with ⟨rfl, inside⟩ | other
    · exact ne (own b inside i mem)
    · exact levels i j ne b mem other

theorem Levels.apart (levels : Levels nodes) (ne : j ≠ k) :
    ∀ link ∈ Link.head j :: (nodes j).map Link.node, link ∉ Link.head k :: (nodes k).map Link.node := by
  intro link inside outside
  simp only [mem_cons, mem_map] at inside outside
  rcases inside with rfl | ⟨a, mem, rfl⟩
  · simp [ne] at outside
  · rcases outside with head | ⟨b, present, same⟩
    · cases head
    · obtain rfl : b = a := by simpa using same
      exact levels j k ne b mem present

theorem node_fresh (fresh : ∀ k, new ∉ nodes k) (k : Nat) :
    Link.node new ∉ Link.head k :: (nodes k).map Link.node := by
  simpa using fresh k

/-- An edit of one list that is known to be right there and to touch links of
that list only keeps all lists right. -/
theorem Rings.of_edit (own : Ring links' (.head k) (list.map .node))
    (others : ∀ j ≠ k, j < BPLUS_MAX_LEVEL → Ring links' (.head j) ((nodes j).map .node)) :
    Rings links' (update nodes k list) := by
  intro j small
  grind

theorem Rings.init (rings : Rings links nodes) (fresh : ∀ k, new ∉ nodes k) : Rings (links.init (.node new)) nodes :=
  fun k small => (rings k small).init_other (node_fresh fresh k)

section

variable (rings : Rings links nodes) (levels : Levels nodes) (small : k < BPLUS_MAX_LEVEL)
include rings levels small

theorem Rings.addBefore (once : (nodes k).Nodup) (mem : a ∈ nodes k) (fresh : ∀ k, new ∉ nodes k) :
    Rings (links.addBetween (.node new) (links.prev (.node a)) (.node a)) (replaceNode nodes k a [new, a]) := by
  have ring := rings k small
  obtain ⟨front, back, list⟩ := append_of_mem mem
  rw [replaceNode_eq once list]
  have inside : Link.node a ∈ Link.head k :: (nodes k).map Link.node := by simp [list]
  refine Rings.of_edit ?_ fun j ne bounded => (rings j bounded).addBetween_other (node_fresh fresh j)
    (levels.apart ne.symm _ (ring.closed inside).2) (levels.apart ne.symm _ inside)
  have apart := node_fresh fresh k
  grind [Ring.addBefore]

theorem Rings.addAfter (once : (nodes k).Nodup) (mem : a ∈ nodes k) (fresh : ∀ k, new ∉ nodes k) :
    Rings (links.add (.node new) (.node a)) (replaceNode nodes k a [a, new]) := by
  have ring := rings k small
  obtain ⟨front, back, list⟩ := append_of_mem mem
  rw [replaceNode_eq once list]
  have inside : Link.node a ∈ Link.head k :: (nodes k).map Link.node := by simp [list]
  refine Rings.of_edit ?_ fun j ne bounded => (rings j bounded).addBetween_other (node_fresh fresh j)
    (levels.apart ne.symm _ inside) (levels.apart ne.symm _ (ring.closed inside).1)
  grind [Ring.add]

theorem Rings.addFirst (list : nodes k = []) (fresh : ∀ k, new ∉ nodes k) :
    Rings (links.add (.node new) (.head k)) (update nodes k [new]) := by
  have ring := rings k small
  have inside : Link.head k ∈ Link.head k :: (nodes k).map Link.node := by simp
  refine Rings.of_edit ?_ fun j ne bounded => (rings j bounded).addBetween_other (node_fresh fresh j)
    (levels.apart ne.symm _ inside) (levels.apart ne.symm _ (ring.closed inside).1)
  rw [list] at ring
  exact ring.addFirst (by simp)

theorem Rings.del (once : (nodes k).Nodup) (mem : a ∈ nodes k) :
    Rings (links.del (.node a)) (replaceNode nodes k a []) := by
  have ring := rings k small
  obtain ⟨front, back, list⟩ := append_of_mem mem
  rw [replaceNode_eq once list, append_nil]
  have inside : Link.node a ∈ Link.head k :: (nodes k).map Link.node := by simp [list]
  refine Rings.of_edit ?_ fun j ne bounded => (rings j bounded).del_other ring inside
    (levels.apart ne.symm)
  grind [Ring.del]

end

theorem Rings.prev {h : Heap} (rings : Rings h.links nodes) (small : k < BPLUS_MAX_LEVEL)
    (list : nodes k = front ++ l :: a :: back) : h.listPrevEntry a = some l := by
  have ring := rings k small
  rw [list] at ring
  simp only [map_append, map_cons] at ring
  rw [append_cons] at ring
  obtain ⟨after, bs, right⟩ : ∃ after bs, back.map Link.node ++ [Link.head k] = after :: bs :=
    exists_cons_of_ne_nil (by simp)
  grind [Heap.listPrevEntry, Ring.neighbours]

theorem Rings.next {h : Heap} (rings : Rings h.links nodes) (small : k < BPLUS_MAX_LEVEL)
    (list : nodes k = front ++ a :: r :: back) : h.listNextEntry a = some r := by
  have ring := rings k small
  rw [list] at ring
  simp only [map_append, map_cons] at ring
  obtain ⟨as, before, left⟩ : ∃ as before, Link.head k :: front.map Link.node = as ++ [before] :=
    ⟨_, _, (dropLast_append_getLast (cons_ne_nil _ _)).symm⟩
  have right : (Link.node r :: back.map Link.node) ++ [Link.head k] =
      Link.node r :: (back.map Link.node ++ [Link.head k]) := rfl
  rw [Heap.listNextEntry, (ring.neighbours left right).2]

end BlockchainPG.Mbt
