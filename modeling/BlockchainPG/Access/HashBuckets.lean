import BlockchainPG.Access.HashSearch

/-! Insertion along the chain of a bucket, its split and its squeeze. -/

namespace BlockchainPG.Access.Hash

open Lib Storage
open List hiding prev next

variable {Tid : Type u}

/-- A chain of pages around one of them. -/
def BucketChain.join (before : List (HashPage Tid)) (page : HashPage Tid) (after : List (HashPage Tid)) :
    BucketChain Tid :=
  match before with
  | [] => ⟨page, after⟩
  | first :: before => ⟨first, before ++ page :: after⟩

theorem join_pages (before : List (HashPage Tid)) (page : HashPage Tid) (after : List (HashPage Tid)) :
    (BucketChain.join before page after).pages = before ++ page :: after := by
  cases before <;> rfl

section Insert

/-- The loop of `_hash_doinsert` over the pages of the bucket, and `_hash_pgaddtup`. A new
overflow page has room for the tuple. -/
def insertPages (itup : IndexTuple Tid) (page : HashPage Tid) : List (HashPage Tid) → BucketChain Tid
  | [] =>
    if page.freeSpace < itup.itemsz then ⟨page, [hashPgaddtup .empty itup]⟩ else ⟨hashPgaddtup page itup, []⟩
  | next :: rest =>
    if page.freeSpace < itup.itemsz then ⟨page, (insertPages itup next rest).pages⟩
    else ⟨hashPgaddtup page itup, next :: rest⟩

def BucketChain.insert (bucket : BucketChain Tid) (itup : IndexTuple Tid) : BucketChain Tid :=
  insertPages itup bucket.primary bucket.overflow

theorem insertPages_perm (itup : IndexTuple Tid) (page : HashPage Tid) (rest : List (HashPage Tid)) :
    (insertPages itup page rest).tuples.Perm (itup :: (page :: rest).flatMap HashPage.items) := by
  induction rest generalizing page with
  | nil =>
    unfold insertPages
    split
    · have added := hashPgaddtup_perm (.empty : HashPage Tid) itup
      exact (added.append_right []).append_left page.items |>.trans perm_middle
    · exact (hashPgaddtup_perm page itup).append_right _
  | cons next rest ih =>
    unfold insertPages
    split
    · exact ((ih next).append_left page.items).trans perm_middle
    · exact (hashPgaddtup_perm page itup).append_right _

theorem insertPages_ordered (itup : IndexTuple Tid) (ordered : ∀ other ∈ page :: rest, other.Ordered)
    : (insertPages itup page rest).Ordered := by
  have fresh : (HashPage.empty : HashPage Tid).Ordered := List.Pairwise.nil
  induction rest generalizing page with
  | nil =>
    obtain ⟨here, _⟩ := List.forall_mem_cons.mp ordered
    unfold insertPages
    split
    · exact List.forall_mem_cons.mpr ⟨here, List.forall_mem_singleton.mpr (hashPgaddtup_ordered fresh itup)⟩
    · exact List.forall_mem_singleton.mpr (hashPgaddtup_ordered here itup)
  | cons next rest ih =>
    obtain ⟨here, later⟩ := List.forall_mem_cons.mp ordered
    unfold insertPages
    split
    · exact List.forall_mem_cons.mpr ⟨here, ih later⟩
    · exact List.forall_mem_cons.mpr ⟨hashPgaddtup_ordered here itup, later⟩

end Insert

section Squeeze

/-- What there is to do for `_hash_squeezebucket` with pages in front of the read page. -/
def todo (between : List (HashPage Tid)) : Nat := (between.map fun page => page.items.length + 1).sum

theorem todo_getLast (last : between.getLast? = some prev) :
    todo between = todo between.dropLast + prev.items.length + 1 := by
  grind [getLast?_eq_some_iff, todo]

/-- The loop of `_hash_squeezebucket`: the pages in front of the write page, the write
page, the pages up to the read page, and the read page with the tuples it still has. -/
def squeezeLoop (before : List (HashPage Tid)) (wpage : HashPage Tid) (between : List (HashPage Tid)) :
    HashPage Tid → BucketChain Tid
  | ⟨[]⟩ =>
    -- the read page is empty and freed
    match _last : between.getLast? with
    | none => .join before wpage []
    | some prev => squeezeLoop before wpage between.dropLast prev
  | ⟨itup :: items⟩ =>
    if wpage.freeSpace < itup.itemsz then
      match between with
      | [] => .join before wpage [⟨itup :: items⟩]
      | next :: between => squeezeLoop (before ++ [wpage]) next between ⟨itup :: items⟩
    else squeezeLoop before (wpage.appendItem itup) between ⟨items⟩
termination_by rpage => todo between + rpage.items.length
decreasing_by
  · rw [todo_getLast _last]
    simp only [length_nil]
    omega
  · simp only [todo, map_cons, sum_cons]
    omega
  · simp only [length_cons]
    omega

def hashSqueezebucket (bucket : BucketChain Tid) : BucketChain Tid :=
  match bucket.overflow.getLast? with
  | none => bucket
  | some last => squeezeLoop [] bucket.primary bucket.overflow.dropLast last

theorem squeezeLoop_perm (before : List (HashPage Tid)) (wpage : HashPage Tid) (between : List (HashPage Tid))
    (rpage : HashPage Tid) : (squeezeLoop before wpage between rpage).tuples.Perm
      ((before ++ wpage :: between ++ [rpage]).flatMap HashPage.items) := by
  fun_induction squeezeLoop before wpage between rpage with
  | case1 before wpage between last =>
    obtain rfl := List.getLast?_eq_none_iff.mp last
    rw [BucketChain.tuples, join_pages]
    simp
  | case2 before wpage between prev last ih =>
    obtain ⟨earlier, rfl⟩ := List.getLast?_eq_some_iff.mp last
    refine ih.trans ?_
    simp
  | case3 before wpage itup items full =>
    rw [BucketChain.tuples, join_pages]
    simp
  | case4 before wpage itup items full next between ih =>
    refine ih.trans ?_
    simp
  | case5 before wpage between itup items room ih =>
    refine ih.trans ?_
    simp only [flatMap_append, flatMap_cons, flatMap_nil, HashPage.appendItem_items, append_assoc, append_nil]
    refine List.Perm.append_left _ (List.Perm.append_left _ ?_)
    rw [singleton_append]
    exact List.perm_middle.symm

theorem hashSqueezebucket_perm (bucket : BucketChain Tid) : (hashSqueezebucket bucket).tuples.Perm bucket.tuples := by
  unfold hashSqueezebucket
  split
  · exact .refl _
  · grind [getLast?_eq_some_iff, squeezeLoop_perm, BucketChain.tuples, BucketChain.pages]

/-- The hash keys do not decrease from the primary page to the overflow pages, and two
overflow pages have the same hash keys. -/
def BucketChain.Ascends (bucket : BucketChain Tid) : Prop :=
  (∀ page ∈ bucket.overflow, ∀ x ∈ bucket.primary.items, ∀ y ∈ page.items, x.hashkey ≤ y.hashkey) ∧
    bucket.overflow.Pairwise fun page page' => ∀ x ∈ page.items, ∀ y ∈ page'.items, x.hashkey = y.hashkey

instance (bucket : BucketChain Tid) : Decidable bucket.Ascends := inferInstanceAs (Decidable (_ ∧ _))

theorem BucketChain.Ascends.mono {primary primary' : HashPage Tid} {overflow overflow' : List (HashPage Tid)}
    (ascends : (⟨primary, overflow⟩ : BucketChain Tid).Ascends) (fewer : ∀ x ∈ primary'.items, x ∈ primary.items)
    (sublist : overflow'.Sublist overflow) : (⟨primary', overflow'⟩ : BucketChain Tid).Ascends :=
  ⟨fun page mem x first => ascends.1 page (sublist.subset mem) x (fewer x first), ascends.2.sublist sublist⟩

theorem squeezeLoop_ordered (before : List (HashPage Tid)) (wpage : HashPage Tid) (between : List (HashPage Tid))
    (rpage : HashPage Tid) (passed : ∀ page ∈ before, page.Ordered) (writes : wpage.Ordered)
    (middle : ∀ page ∈ between, page.Ordered) (reads : rpage.Ordered)
    (ascends : (⟨wpage, between ++ [rpage]⟩ : BucketChain Tid).Ascends) :
    (squeezeLoop before wpage between rpage).Ordered := by
  fun_induction squeezeLoop before wpage between rpage with
  | case1 before wpage between last =>
    grind [BucketChain.Ordered, join_pages]
  | case2 before wpage between prev last ih =>
    obtain ⟨earlier, rfl⟩ := List.getLast?_eq_some_iff.mp last
    obtain ⟨first, orderedPrev⟩ := List.forall_mem_append.mp middle
    rw [dropLast_concat] at ih ⊢
    exact ih passed writes first (List.forall_mem_singleton.mp orderedPrev)
      (ascends.mono (fun _ mem => mem) (sublist_append_left ..))
  | case3 before wpage itup items full =>
    grind [BucketChain.Ordered, join_pages]
  | case4 before wpage itup items full next between ih =>
    obtain ⟨orderedNext, later⟩ := List.forall_mem_cons.mp middle
    obtain ⟨same, pairwise⟩ := List.pairwise_cons.mp ascends.2
    exact ih (List.forall_mem_append.mpr ⟨passed, List.forall_mem_singleton.mpr writes⟩) orderedNext later reads
      ⟨fun page mem x first y second => (same page mem x first y second).le, pairwise⟩
  | case5 before wpage between itup items room ih =>
    obtain ⟨least, itemsOrdered⟩ := List.pairwise_cons.mp reads
    obtain ⟨greater, pairwise⟩ := ascends
    obtain ⟨pairwise', -, across⟩ := List.pairwise_append.mp pairwise
    have moved : itup ∈ (⟨itup :: items⟩ : HashPage Tid).items := mem_cons_self
    have readPage : (⟨itup :: items⟩ : HashPage Tid) ∈ between ++ [⟨itup :: items⟩] :=
      mem_append_right _ mem_cons_self
    refine ih passed ?_ middle itemsOrdered ⟨?_, ?_⟩
    · unfold HashPage.Ordered
      rw [HashPage.appendItem_items]
      refine Sorted.append writes (pairwise_singleton ..) fun x mem => List.forall_mem_singleton.mpr ?_
      exact greater _ readPage x mem itup moved
    · intro page mem x first y second
      rw [HashPage.appendItem_items] at first
      rcases List.mem_append.mp mem with inside | last <;> rcases List.mem_append.mp first with old | new
      · grind
      · rw [List.mem_singleton.mp new]
        exact (across page inside _ mem_cons_self y second itup moved).ge
      · rw [List.mem_singleton.mp last] at second
        exact greater _ readPage x old y (mem_cons_of_mem _ second)
      · grind
    · refine List.pairwise_append.mpr ⟨pairwise', pairwise_singleton .., fun page mem => ?_⟩
      refine List.forall_mem_singleton.mpr fun x first y second => ?_
      exact across page mem _ mem_cons_self x first y (mem_cons_of_mem _ second)

theorem hashSqueezebucket_ordered (ordered : bucket.Ordered) (ascends : bucket.Ascends) :
    (hashSqueezebucket bucket).Ordered := by
  unfold hashSqueezebucket
  split
  · exact ordered
  · next last found =>
    obtain ⟨primary, overflow⟩ := bucket
    obtain ⟨earlier, rfl⟩ := List.getLast?_eq_some_iff.mp found
    obtain ⟨orderedPrimary, later⟩ := List.forall_mem_cons.mp ordered
    grind [squeezeLoop_ordered]

end Squeeze

section Split

/-- The new bucket while it is filled: its pages up to the last one, `npage`. -/
structure NewBucket (Tid : Type u) where
  full : List (HashPage Tid)
  npage : HashPage Tid

def NewBucket.chain (new : NewBucket Tid) : BucketChain Tid := .join new.full new.npage []

/-- A tuple is put at the end of the new bucket, which gets another overflow page if it has no room. -/
def NewBucket.add (new : NewBucket Tid) (itup : IndexTuple Tid) : NewBucket Tid :=
  if new.npage.freeSpace < itup.itemsz then ⟨new.full ++ [new.npage], HashPage.empty.appendItem itup⟩
  else ⟨new.full, new.npage.appendItem itup⟩

/-- The loop of `_hash_splitbucket` over the tuples of a page. -/
def splitItems (moves : IndexTuple Tid → Bool) : List (IndexTuple Tid) → NewBucket Tid →
    List (IndexTuple Tid) × NewBucket Tid
  | [], new => ([], new)
  | itup :: items, new =>
    if moves itup then splitItems moves items (new.add itup)
    else
      let (kept, new) := splitItems moves items new
      (itup :: kept, new)

/-- The loop of `_hash_splitbucket` over the overflow pages. -/
def splitPages (moves : IndexTuple Tid → Bool) : List (HashPage Tid) → NewBucket Tid →
    List (HashPage Tid) × NewBucket Tid
  | [], new => ([], new)
  | page :: pages, new =>
    let (items, new) := splitItems moves page.items new
    let (pages, new) := splitPages moves pages new
    (⟨items⟩ :: pages, new)

/-- `_hash_splitbucket` on the old bucket, where the hash keys say which tuples move: the
old bucket and the new one. -/
def hashSplitbucket (moves : IndexTuple Tid → Bool) (old : BucketChain Tid) : BucketChain Tid × BucketChain Tid :=
  let (items, new) := splitItems moves old.primary.items ⟨[], .empty⟩
  let (overflow, new) := splitPages moves old.overflow new
  (hashSqueezebucket ⟨⟨items⟩, overflow⟩, new.chain)

theorem NewBucket.add_tuples (new : NewBucket Tid) (itup : IndexTuple Tid) :
    (new.add itup).chain.tuples = new.chain.tuples ++ [itup] := by
  grind [add, chain, BucketChain.tuples, join_pages, HashPage.appendItem_items, HashPage.empty]

theorem splitItems_spec (moves : IndexTuple Tid → Bool) (items : List (IndexTuple Tid)) (new : NewBucket Tid) :
    (splitItems moves items new).1 = items.filter (fun itup => ! moves itup) ∧
      (splitItems moves items new).2.chain.tuples = new.chain.tuples ++ items.filter moves := by
  induction items generalizing new with
  | nil => exact ⟨rfl, (append_nil _).symm⟩
  | cons itup items ih =>
    grind [splitItems, NewBucket.add_tuples]

theorem splitPages_spec (moves : IndexTuple Tid → Bool) (pages : List (HashPage Tid)) (new : NewBucket Tid) :
    (splitPages moves pages new).1 = pages.map (fun page => ⟨page.items.filter fun itup => ! moves itup⟩) ∧
      (splitPages moves pages new).2.chain.tuples =
        new.chain.tuples ++ (pages.flatMap HashPage.items).filter moves := by
  induction pages generalizing new with
  | nil => exact ⟨rfl, (append_nil _).symm⟩
  | cons page pages ih =>
    grind [splitItems_spec, splitPages]

/-- The bucket without the tuples that a condition does not keep. -/
def BucketChain.filter (keeps : IndexTuple Tid → Bool) (bucket : BucketChain Tid) : BucketChain Tid where
  primary := ⟨bucket.primary.items.filter keeps⟩
  overflow := bucket.overflow.map fun page => ⟨page.items.filter keeps⟩

theorem BucketChain.filter_tuples (keeps : IndexTuple Tid → Bool) (bucket : BucketChain Tid) :
    (bucket.filter keeps).tuples = bucket.tuples.filter keeps := by
  simp [filter, tuples, pages, filter_flatMap, flatMap_map]

theorem BucketChain.Ordered.filter {bucket : BucketChain Tid} (ordered : bucket.Ordered)
    (keeps : IndexTuple Tid → Bool) :
    (bucket.filter keeps).Ordered := by
  have each {page : HashPage Tid} (here : page.Ordered) : (⟨page.items.filter keeps⟩ : HashPage Tid).Ordered :=
    List.Pairwise.filter _ here
  obtain ⟨primary, overflow⟩ := List.forall_mem_cons.mp ordered
  refine List.forall_mem_cons.mpr ⟨each primary, List.forall_mem_map.mpr fun page mem => each (overflow page mem)⟩

theorem BucketChain.Ascends.filter {bucket : BucketChain Tid} (ascends : bucket.Ascends)
    (keeps : IndexTuple Tid → Bool) : (bucket.filter keeps).Ascends := by
  obtain ⟨greater, pairwise⟩ := ascends
  refine ⟨List.forall_mem_map.mpr fun page mem x first y second => ?_, List.pairwise_map.mpr (pairwise.imp ?_)⟩
  · exact greater page mem x (List.mem_filter.mp first).1 y (List.mem_filter.mp second).1
  · grind

theorem BucketChain.Ascends.sorted {bucket : BucketChain Tid} (ascends : bucket.Ascends) (ordered : bucket.Ordered) :
    Sorted IndexTuple.hashkey bucket.tuples := by
  obtain ⟨greater, pairwise⟩ := ascends
  obtain ⟨primary, overflow⟩ := List.forall_mem_cons.mp ordered
  refine Sorted.append primary ?_ ?_
  · refine List.pairwise_flatMap.mpr ⟨overflow, pairwise.imp fun same x first y second => (same x first y second).le⟩
  · grind

theorem BucketChain.ordered_of_sorted {bucket : BucketChain Tid} (sorted : Sorted IndexTuple.hashkey bucket.tuples) :
    bucket.Ordered :=
  (List.pairwise_flatMap.mp sorted).1

theorem hashSplitbucket_eq (moves : IndexTuple Tid → Bool) (old : BucketChain Tid) :
    (hashSplitbucket moves old).1 = hashSqueezebucket (old.filter fun itup => ! moves itup) ∧
      (hashSplitbucket moves old).2.tuples = old.tuples.filter moves := by
  obtain ⟨kept, added⟩ := splitItems_spec moves old.primary.items ⟨[], .empty⟩
  obtain ⟨keptPages, addedPages⟩ := splitPages_spec moves old.overflow
    (splitItems moves old.primary.items ⟨[], .empty⟩).2
  refine ⟨?_, ?_⟩
  · simp only [hashSplitbucket, kept, keptPages]
    rfl
  · simp only [hashSplitbucket, addedPages, added]
    simp [BucketChain.tuples, BucketChain.pages, NewBucket.chain, BucketChain.join, HashPage.empty]

end Split

end BlockchainPG.Access.Hash
