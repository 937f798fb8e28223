import Mathlib.Data.List.Nodup

/-! Circular doubly linked lists whose links live inside the linked objects. -/

namespace BlockchainPG.Lib

open Function List

/-- The two link fields of every list head and list member. -/
structure Links (α : Type u) where
  prev : α → α
  next : α → α

namespace Links

variable {α : Type u} [DecidableEq α] (links : Links α)

def init (link : α) : Links α where
  prev := update links.prev link link
  next := update links.next link link

def addBetween (link prev next : α) : Links α where
  prev := update (update links.prev link prev) next link
  next := update (update links.next link next) prev link

/-- Link an object right after another. -/
def add (link prev : α) : Links α := links.addBetween link prev (links.next prev)

/-- Let two objects be neighbours. -/
def delBetween (prev next : α) : Links α where
  prev := update links.prev next prev
  next := update links.next prev next

/-- Take an object out and let it link to itself. -/
def del (link : α) : Links α := (links.delBetween (links.prev link) (links.next link)).init link

end Links

/-- Walking `next` from the head passes `members` and returns to the head;
walking `prev` retraces the steps. -/
structure Ring (links : Links α) (head : α) (members : List α) : Prop where
  nodup : (head :: members).Nodup
  forward : (head :: members).map links.next = members ++ [head]
  backward : (members ++ [head]).map links.prev = head :: members

section

variable {α : Type u} {links : Links α} {head : α}
variable {members front back as bs : List α} {link member before after : α}

theorem Ring.congr (ring : Ring links head members)
    (next : ∀ link ∈ head :: members, other.next link = links.next link)
    (prev : ∀ link ∈ head :: members, other.prev link = links.prev link) : Ring other head members where
  nodup := ring.nodup
  forward := (map_congr_left next).trans ring.forward
  backward := (map_congr_left fun link member => prev link (by simpa [or_comm] using member)).trans
    ring.backward

theorem Ring.gap (ring : Ring links head (front ++ back))
    (left : head :: front = as ++ [before]) (right : back ++ [head] = after :: bs) :
    as.map links.next = front ∧ links.next before = after ∧ back.map links.next = bs ∧
      front.map links.prev = as ∧ links.prev after = before ∧ bs.map links.prev = back := by
  have forward := ring.forward
  have backward := ring.backward
  rw [← cons_append, left, append_assoc, append_assoc, right] at forward
  rw [← cons_append, left, append_assoc, right, append_assoc] at backward
  simp only [map_append, map_cons, singleton_append] at forward backward
  have size : as.length = front.length := by
    have := congrArg List.length left
    simpa using this.symm
  grind [append_inj]

/-- A list read off around a gap of its ring has no repetition on either side. -/
private theorem gap_nodup {front back as bs : List α} {before after : α} (distinct : (head :: (front ++ back)).Nodup)
    (left : head :: front = as ++ [before]) (right : back ++ [head] = after :: bs) :
    (before ∉ as ∧ before ∉ back) ∧ (after ∉ front ∧ after ∉ bs) := by
  grind [perm_append_singleton, nodup_cons]

theorem Ring.neighbours (ring : Ring links head (front ++ member :: back))
    (left : head :: front = as ++ [before]) (right : back ++ [head] = after :: bs) :
    links.prev member = before ∧ links.next member = after := by
  refine ⟨(ring.gap left rfl).2.2.2.2.1, ?_⟩
  rw [append_cons] at ring
  exact (ring.gap (show head :: (front ++ [member]) = (head :: front) ++ [member] from rfl) right).2.1

theorem Ring.closed (ring : Ring links head members) (inside : link ∈ head :: members) :
    links.next link ∈ head :: members ∧ links.prev link ∈ head :: members := by
  have next := mem_map_of_mem (f := links.next) inside
  rw [ring.forward] at next
  have turned : link ∈ members ++ [head] := by simpa [or_comm] using inside
  have prev := mem_map_of_mem (f := links.prev) turned
  grind [backward]

variable [DecidableEq α]

theorem map_update_of_notMem {f : α → β} {list : List α} (absent : key ∉ list) (value : β) :
    list.map (update f key value) = list.map f :=
  map_congr_left fun _ member => update_of_ne (ne_of_mem_of_not_mem member absent) value f

theorem Ring.insert (ring : Ring links head (front ++ back))
    (left : head :: front = as ++ [before]) (right : back ++ [head] = after :: bs)
    (fresh : link ∉ head :: (front ++ back)) :
    Ring (links.addBetween link before after) head (front ++ link :: back) := by
  obtain ⟨ahead, -, rest, behind, -, tail⟩ := ring.gap left right
  obtain ⟨⟨beforeFront, beforeBack⟩, afterFront, afterBack⟩ := gap_nodup ring.nodup left right
  have inLeft : ∀ x ∈ as ++ [before], x ∈ head :: (front ++ back) := by
    rw [← left]
    simp +contextual
  have inRight : ∀ x ∈ after :: bs, x ∈ head :: (front ++ back) := by
    rw [← right]
    grind
  have notBefore : link ≠ before := fun same => fresh (inLeft link (by simp [same]))
  have notAfter : link ≠ after := fun same => fresh (inRight link (by simp [same]))
  have notAs : link ∉ as := fun member => fresh (inLeft link (by simp [member]))
  have notBs : link ∉ bs := fun member => fresh (inRight link (by simp [member]))
  have notFront : link ∉ front := fun member => fresh (by simp [member])
  have notBack : link ∉ back := fun member => fresh (by simp [member])
  refine ⟨?_, ?_, ?_⟩
  · have distinct := ring.nodup
    simp only [nodup_cons, nodup_append, mem_append, mem_cons] at distinct fresh ⊢
    grind
  · have split : head :: (front ++ link :: back) = as ++ before :: link :: back := by
      grind
    rw [split, append_assoc, cons_append, right]
    simp [Links.addBetween, map_update_of_notMem, notAs, notBack, beforeFront, beforeBack, notBefore, ahead, rest]
  · rw [append_assoc, cons_append, right, ← cons_append, left]
    simp [Links.addBetween, map_update_of_notMem, notFront, notBs, afterFront, afterBack, notAfter, behind, tail]

section

variable (ring : Ring links head (front ++ member :: back)) (fresh : link ∉ head :: (front ++ member :: back))
include ring fresh

theorem Ring.add : Ring (links.add link member) head (front ++ member :: link :: back) := by
  obtain ⟨after, bs, right⟩ : ∃ after bs, back ++ [head] = after :: bs := exists_cons_of_ne_nil (by simp)
  rw [append_cons] at ring fresh ⊢
  have left : head :: (front ++ [member]) = (head :: front) ++ [member] := rfl
  have next := (ring.gap left right).2.1
  rw [Links.add, next]
  exact ring.insert left right fresh

theorem Ring.addBefore :
    Ring (links.addBetween link (links.prev member) member) head (front ++ link :: member :: back) := by
  obtain ⟨as, before, left⟩ : ∃ as before, head :: front = as ++ [before] :=
    ⟨_, _, (dropLast_append_getLast (cons_ne_nil head front)).symm⟩
  have right : (member :: back) ++ [head] = member :: (back ++ [head]) := rfl
  have prev := (ring.gap left right).2.2.2.2.1
  rw [prev]
  exact ring.insert left right fresh

end

theorem Ring.addFirst (ring : Ring links head []) (fresh : link ≠ head) : Ring (links.add link head) head [link] := by
  have single : [head] = [] ++ [head] := rfl
  have empty : Ring links head ([] ++ []) := ring
  have next := (empty.gap single single).2.1
  rw [Links.add, next]
  exact empty.insert single single (by simpa using fresh)

theorem Ring.del (ring : Ring links head (front ++ member :: back)) :
    Ring (links.del member) head (front ++ back) := by
  obtain ⟨as, before, left⟩ : ∃ as before, head :: front = as ++ [before] :=
    ⟨_, _, (dropLast_append_getLast (cons_ne_nil head front)).symm⟩
  obtain ⟨after, bs, right⟩ : ∃ after bs, back ++ [head] = after :: bs := exists_cons_of_ne_nil (by simp)
  obtain ⟨prev, next⟩ := ring.neighbours left right
  have through : (member :: back) ++ [head] = member :: after :: bs := by rw [← right]; rfl
  obtain ⟨ahead, -, rest, behind, -, tail⟩ := ring.gap left through
  obtain ⟨⟨beforeFront, beforeBack⟩, memberFront, memberBack⟩ := gap_nodup ring.nodup left through
  simp only [map_cons, List.cons.injEq] at rest tail
  simp only [mem_cons, not_or] at beforeBack memberBack
  have distinct := ring.nodup
  have headMember : head ≠ member := by
    grind
  have memberAs : member ∉ as := by
    grind
  have backMember : member ∉ back := fun present => by
    grind
  have kept : (head :: (front ++ back)).Nodup :=
    distinct.sublist (((sublist_cons_self member back).append_left front).cons_cons head)
  have afterFront := (gap_nodup kept left right).2
  refine ⟨kept, ?_, ?_⟩
  · rw [← cons_append, left, append_assoc, append_assoc, right]
    simp [Links.del, Links.delBetween, Links.init, map_update_of_notMem, prev, next, memberAs,
      beforeFront, beforeBack, backMember, ahead, rest]
  · rw [append_assoc, right, ← cons_append, left]
    simp [Links.del, Links.delBetween, Links.init, map_update_of_notMem, prev, next, memberFront,
      memberBack, Ne.symm memberBack.1, afterFront, behind, tail]

theorem Ring.addBetween_other (ring : Ring links head members)
    (apart : link ∉ head :: members) (left : before ∉ head :: members) (right : after ∉ head :: members) :
    Ring (links.addBetween link before after) head members := by
  refine ring.congr (fun other inside => ?_) (fun other inside => ?_)
  · simp [Links.addBetween, ne_of_mem_of_not_mem inside apart, ne_of_mem_of_not_mem inside left]
  · simp [Links.addBetween, ne_of_mem_of_not_mem inside apart, ne_of_mem_of_not_mem inside right]

theorem Ring.of_init (links : Links α) (head : α) : Ring (links.init head) head [] :=
  ⟨nodup_singleton head, by simp [Links.init], by simp [Links.init]⟩

theorem Ring.init_other (ring : Ring links head members)
    (apart : link ∉ head :: members) : Ring (links.init link) head members := by
  refine ring.congr (fun other inside => ?_) (fun other inside => ?_)
  · simp [Links.init, ne_of_mem_of_not_mem inside apart]
  · simp [Links.init, ne_of_mem_of_not_mem inside apart]

theorem Ring.del_other (ring : Ring links head members)
    (second : Ring links owner others) (inside : member ∈ owner :: others)
    (apart : ∀ link ∈ owner :: others, link ∉ head :: members) : Ring (links.del member) head members := by
  obtain ⟨next, prev⟩ := second.closed inside
  refine Ring.init_other (ring.congr (fun other own => ?_) (fun other own => ?_)) (apart member inside)
  · simp [Links.delBetween, ne_of_mem_of_not_mem own (apart _ prev)]
  · simp [Links.delBetween, ne_of_mem_of_not_mem own (apart _ next)]

end

end BlockchainPG.Lib
