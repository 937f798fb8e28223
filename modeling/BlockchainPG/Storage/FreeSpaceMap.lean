import BlockchainPG.Storage.FreeSpaceSearch

/-! Whole runs on the map of a relation: vacuum, truncation and searches. -/

namespace BlockchainPG.Storage.Fsm

open Lib Function
open Fork hiding page nblocks

section Vacuum

variable {rel : Fork}

theorem slots_pos : 0 < slotsPerFSMPage := by decide

theorem child_lt (low : n < slotsPerFSMPage) (small : slot < slotsPerFSMPage) :
    n * slotsPerFSMPage + slot < slotsPerFSMPage * slotsPerFSMPage := by
  rw [slotsPerFSMPage_eq] at low small ⊢
  omega

theorem child_div (small : slot < slotsPerFSMPage) : (n * slotsPerFSMPage + slot) / slotsPerFSMPage = n := by
  rw [slotsPerFSMPage_eq] at small ⊢
  omega

theorem child_mod (small : slot < slotsPerFSMPage) : (n * slotsPerFSMPage + slot) % slotsPerFSMPage = slot := by
  rw [slotsPerFSMPage_eq] at small ⊢
  omega

theorem Fork.exists_congr {rel rel' : Fork} (same : rel'.nblocks = rel.nblocks) (addr : FSMAddress) :
    rel'.Exists addr ↔ rel.Exists addr := by
  rw [Fork.Exists, Fork.Exists, same]

theorem Fork.top_missing (missing : ¬ rel.Exists addr) : rel.top addr = 0 := by
  rw [Fork.top, nodesOf_missing missing]

theorem Fork.avail_missing (missing : ¬ rel.Exists addr) (slot : Nat) : rel.avail addr slot = 0 := by
  rw [Fork.avail, nodesOf_missing missing]

theorem missing_next (valid : Valid ⟨level + 1, n⟩) (low : slot ≤ later) (small : later < slotsPerFSMPage)
    (missing : ¬ rel.Exists ⟨level, n * slotsPerFSMPage + slot⟩) :
    ¬ rel.Exists ⟨level, n * slotsPerFSMPage + later⟩ := by
  have first := (valid.child (lt_of_le_of_lt low small)).physical
  have second := (valid.child small).physical
  grind [Fork.Exists]

theorem missing_below (valid : Valid ⟨1, n⟩) (small : slot < slotsPerFSMPage) (missing : ¬ rel.Exists ⟨1, n⟩) :
    ¬ rel.Exists ⟨0, n * slotsPerFSMPage + slot⟩ := by
  have first := valid.physical
  have second := (valid.child small).physical
  grind [Fork.Exists, slotsPerFSMPage_eq]

theorem fixSlot_spec (consistent : rel.Consistent) (valid : Valid addr) (here : rel.Exists addr)
    (low : slot < slotsPerFSMPage) (value : Nat) :
    Sets rel (fixSlot rel addr slot value) addr slot value ∧ (fixSlot rel addr slot value).nblocks = rel.nblocks := by
  by_cases stale : fsmGetAvail (rel.pageAt addr) slot ≠ value
  · rw [fixSlot, if_pos stale]
    exact ⟨sets_write consistent valid here low value _, rfl⟩
  · rw [fixSlot, if_neg stale]
    refine ⟨⟨consistent, fun _ _ _ => rfl, ?_, fun _ _ _ => rfl⟩, rfl⟩
    rw [Fork.avail, nodesOf_exists here]
    exact not_not.mp stale

theorem reset_sameNodes (valid : Valid addr) (here : rel.Exists addr) :
    Fork.SameNodes rel (rel.write addr { rel.pageAt addr with fpNextSlot := 0 }) := by
  intro other known
  grind [nodesOf_write, nodesOf_exists]

theorem vacuum_missing (missing : ¬ rel.Exists ⟨level, n⟩) : fsmVacuumPage level rel n = ((0, true), rel) := by
  rw [fsmVacuumPage.eq_def]
  exact if_neg missing

theorem vacuum_bottom (rel : Fork) (valid : Valid ⟨0, n⟩) : let vacuumed := fsmVacuumPage 0 rel n
    Fork.SameNodes rel vacuumed.2 ∧ vacuumed.2.nblocks = rel.nblocks ∧ vacuumed.1.1 = rel.top ⟨0, n⟩ ∧
      (vacuumed.1.2 = true ↔ ¬ rel.Exists ⟨0, n⟩) := by
  by_cases here : rel.Exists ⟨0, n⟩
  · have visited : fsmVacuumPage 0 rel n = ((fsmGetMaxAvail (rel.pageAt ⟨0, n⟩), false),
        rel.write ⟨0, n⟩ { rel.pageAt ⟨0, n⟩ with fpNextSlot := 0 }) := by
      rw [fsmVacuumPage.eq_def]
      exact if_pos here
    rw [visited]
    refine ⟨reset_sameNodes valid here, rfl, ?_, by simp [here]⟩
    rw [Fork.top, nodesOf_exists here]
    rfl
  · rw [vacuum_missing here]
    exact ⟨fun _ _ => rfl, rfl, (top_missing here).symm, by simp [here]⟩

/-- What the loop over the slots of a page of the middle level has reached. -/
structure MiddleDone (rel : Fork) (n i : Nat) (state : Bool × Fork) : Prop where
  blocks : state.2.nblocks = rel.nblocks
  consistent : state.2.Consistent
  others : ∀ other, Valid other → other ≠ ⟨1, n⟩ → state.2.nodesOf other = rel.nodesOf other
  done : ∀ slot < i, state.2.avail ⟨1, n⟩ slot = rel.top ⟨0, n * slotsPerFSMPage + slot⟩
  behind : state.1 = true → ∀ slot, i ≤ slot → slot < slotsPerFSMPage → ¬ rel.Exists ⟨0, n * slotsPerFSMPage + slot⟩

theorem MiddleDone.set (done : MiddleDone rel n i (eof, rel')) (sets : Sets rel' rel'' ⟨1, n⟩ i value)
    (blocks : rel''.nblocks = rel'.nblocks) (low : i < slotsPerFSMPage)
    (right : value = rel.top ⟨0, n * slotsPerFSMPage + i⟩)
    (behind : eof' = true → ∀ slot, i + 1 ≤ slot → slot < slotsPerFSMPage →
      ¬ rel.Exists ⟨0, n * slotsPerFSMPage + slot⟩) : MiddleDone rel n (i + 1) (eof', rel'') where
  blocks := blocks.trans done.blocks
  consistent := sets.consistent
  others := fun other valid apart => (sets.others other valid apart).trans (done.others other valid apart)
  done := fun slot before => by
    rcases Nat.lt_succ_iff_lt_or_eq.mp before with earlier | rfl
    · exact (sets.rest slot (earlier.trans low) earlier.ne).trans (done.done slot earlier)
    · exact sets.own.trans right
  behind := behind

theorem vacuumSlot_middle (valid : Valid ⟨1, n⟩) (here : rel.Exists ⟨1, n⟩) (low : i < slotsPerFSMPage)
    (done : MiddleDone rel n i state) :
    MiddleDone rel n (i + 1) (vacuumSlot (fun rel logpageno => fsmVacuumPage 0 rel logpageno) ⟨1, n⟩ i state) := by
  obtain ⟨eof, rel'⟩ := state
  have still : rel'.Exists ⟨1, n⟩ := (exists_congr done.blocks _).mpr here
  cases eof with
  | true =>
    obtain ⟨sets, blocks⟩ := fixSlot_spec done.consistent valid still low 0
    have missing := done.behind rfl i le_rfl low
    exact done.set sets blocks low (top_missing missing).symm fun _ slot after small =>
      done.behind rfl slot (by omega) small
  | false =>
    have child := valid.child low
    obtain ⟨same, blocks, promised, eof⟩ := vacuum_bottom rel' child
    have kept : MiddleDone rel n i (false, (fsmVacuumPage 0 rel' (n * slotsPerFSMPage + i)).2) :=
      ⟨blocks.trans done.blocks, done.consistent.sameNodes same,
        fun other known apart => (same other known).trans (done.others other known apart),
        fun slot before => (same.avail valid slot).trans (done.done slot before), nofun⟩
    obtain ⟨sets, set⟩ := fixSlot_spec kept.consistent valid
      ((exists_congr kept.blocks _).mpr here) low (fsmVacuumPage 0 rel' (n * slotsPerFSMPage + i)).1.1
    refine kept.set sets set low ?_ fun ended slot after small => ?_
    · have apart : (⟨0, n * slotsPerFSMPage + i⟩ : FSMAddress) ≠ ⟨1, n⟩ := fun same => by cases same
      rw [promised, Fork.top, done.others _ child apart, Fork.top]
    · have missing := mt (exists_congr done.blocks ⟨0, n * slotsPerFSMPage + i⟩).mpr (eof.mp ended)
      exact missing_next valid (by omega) small missing

theorem vacuum_upper (here : rel.Exists ⟨level + 1, n⟩) (loop : (forUp 0 slotsPerFSMPage
      (vacuumSlot (fun rel logpageno => fsmVacuumPage level rel logpageno) ⟨level + 1, n⟩) (false, rel)).2 = rel') :
    fsmVacuumPage (level + 1) rel n = ((fsmGetMaxAvail (rel'.pageAt ⟨level + 1, n⟩), false),
      rel'.write ⟨level + 1, n⟩ { rel'.pageAt ⟨level + 1, n⟩ with fpNextSlot := 0 }) := by
  rw [fsmVacuumPage.eq_2]
  dsimp only
  rw [if_pos here, loop]

theorem MiddleDone.sameNodes (done : MiddleDone rel n i (eof, rel')) (same : Fork.SameNodes rel' rel'')
    (blocks : rel''.nblocks = rel'.nblocks) (valid : Valid ⟨1, n⟩) : MiddleDone rel n i (false, rel'') where
  blocks := blocks.trans done.blocks
  consistent := done.consistent.sameNodes same
  others := fun other known apart => (same other known).trans (done.others other known apart)
  done := fun slot before => (same.avail valid slot).trans (done.done slot before)
  behind := nofun

theorem vacuum_middle (consistent : rel.Consistent) (valid : Valid ⟨1, n⟩) : let vacuumed := fsmVacuumPage 1 rel n
    MiddleDone rel n slotsPerFSMPage (false, vacuumed.2) ∧ vacuumed.1.1 = vacuumed.2.top ⟨1, n⟩ ∧
      (vacuumed.1.2 = true ↔ ¬ rel.Exists ⟨1, n⟩) := by
  by_cases here : rel.Exists ⟨1, n⟩
  · have first : MiddleDone rel n 0 (false, rel) :=
      ⟨rfl, consistent, fun _ _ _ => rfl, fun _ wrong => absurd wrong (Nat.not_lt_zero _), by rintro ⟨⟩⟩
    have last := forUp_invariant (Nat.zero_le slotsPerFSMPage) first
      (fun i state _ low done => vacuumSlot_middle valid here low done)
    generalize loop : forUp 0 slotsPerFSMPage
      (vacuumSlot (fun rel logpageno => fsmVacuumPage 0 rel logpageno) ⟨1, n⟩) (false, rel) = state at last
    obtain ⟨eof, rel'⟩ := state
    have still : rel'.Exists ⟨1, n⟩ := (exists_congr last.blocks _).mpr here
    have same := reset_sameNodes valid still
    rw [vacuum_upper here (congrArg Prod.snd loop)]
    refine ⟨last.sameNodes same rfl valid, ?_, by simp [here]⟩
    rw [Fork.top, same _ valid, nodesOf_exists still]
    rfl
  · rw [vacuum_missing here]
    refine ⟨⟨rfl, consistent, fun _ _ _ => rfl, fun slot low => ?_, by rintro ⟨⟩⟩,
      (top_missing here).symm, by simp [here]⟩
    rw [avail_missing here, top_missing (missing_below valid low here)]

def MiddleExact (rel : Fork) (n : Nat) : Prop :=
  ∀ slot < slotsPerFSMPage, rel.avail ⟨1, n⟩ slot = rel.top ⟨0, n * slotsPerFSMPage + slot⟩

/-- What the loop over the slots of the root page has reached. -/
structure RootDone (rel : Fork) (i : Nat) (state : Bool × Fork) : Prop where
  blocks : state.2.nblocks = rel.nblocks
  consistent : state.2.Consistent
  bottom : ∀ n < slotsPerFSMPage * slotsPerFSMPage, state.2.nodesOf ⟨0, n⟩ = rel.nodesOf ⟨0, n⟩
  done : ∀ slot < i, state.2.avail ⟨2, 0⟩ slot = state.2.top ⟨1, slot⟩ ∧ MiddleExact state.2 slot
  behind : state.1 = true → ∀ slot, i ≤ slot → slot < slotsPerFSMPage → ¬ rel.Exists ⟨1, slot⟩

theorem RootDone.set (done : RootDone rel i (eof, rel')) (sets : Sets rel' rel'' ⟨2, 0⟩ i value)
    (blocks : rel''.nblocks = rel'.nblocks) (low : i < slotsPerFSMPage) (exactBelow : MiddleExact rel' i)
    (right : value = rel'.top ⟨1, i⟩)
    (behind : eof' = true → ∀ slot, i + 1 ≤ slot → slot < slotsPerFSMPage → ¬ rel.Exists ⟨1, slot⟩) :
    RootDone rel (i + 1) (eof', rel'') := by
  have below : ∀ n < slotsPerFSMPage * slotsPerFSMPage, rel''.nodesOf ⟨0, n⟩ = rel'.nodesOf ⟨0, n⟩ :=
    fun n inside => sets.others _ (valid_bottom inside) fun same => by cases same
  have middle : ∀ n < slotsPerFSMPage, rel''.nodesOf ⟨1, n⟩ = rel'.nodesOf ⟨1, n⟩ :=
    fun n inside => sets.others _ (valid_middle inside) fun same => by cases same
  have kept : ∀ n < slotsPerFSMPage, MiddleExact rel' n → MiddleExact rel'' n := by
    intro n inside exactly slot small
    rw [Fork.avail, middle n inside, Fork.top, below _ (child_lt inside small)]
    exact exactly slot small
  refine ⟨blocks.trans done.blocks, sets.consistent, fun n inside => (below n inside).trans (done.bottom n inside),
    fun slot before => ?_, behind⟩
  rcases Nat.lt_succ_iff_lt_or_eq.mp before with earlier | rfl
  · obtain ⟨promised, exactly⟩ := done.done slot earlier
    refine ⟨?_, kept slot (earlier.trans low) exactly⟩
    rw [sets.rest slot (earlier.trans low) earlier.ne, promised, Fork.top, Fork.top, middle slot (earlier.trans low)]
  · refine ⟨?_, kept slot low exactBelow⟩
    rw [sets.own, right, Fork.top, Fork.top, middle slot low]

theorem RootDone.vacuumed (done : RootDone rel i (eof, rel')) (low : i < slotsPerFSMPage)
    (middle : MiddleDone rel' i slotsPerFSMPage (false, rel'')) :
    RootDone rel i (false, rel'') ∧ MiddleExact rel'' i := by
  have below : ∀ n < slotsPerFSMPage * slotsPerFSMPage, rel''.nodesOf ⟨0, n⟩ = rel'.nodesOf ⟨0, n⟩ :=
    fun n inside => middle.others _ (valid_bottom inside) fun same => by cases same
  have child : ∀ n < slotsPerFSMPage, ∀ slot < slotsPerFSMPage,
      rel''.top ⟨0, n * slotsPerFSMPage + slot⟩ = rel'.top ⟨0, n * slotsPerFSMPage + slot⟩ := by
    intro n inside slot small
    rw [Fork.top, below _ (child_lt inside small), Fork.top]
  refine ⟨⟨middle.blocks.trans done.blocks, middle.consistent,
    fun n inside => (below n inside).trans (done.bottom n inside), fun slot before => ?_, by rintro ⟨⟩⟩,
    fun slot small => (middle.done slot small).trans (child i low slot small).symm⟩
  obtain ⟨promised, exactly⟩ := done.done slot before
  have inside := before.trans low
  have own : rel''.nodesOf ⟨1, slot⟩ = rel'.nodesOf ⟨1, slot⟩ :=
    middle.others _ (valid_middle inside) fun same => before.ne (by cases same; rfl)
  have root : rel''.nodesOf ⟨2, 0⟩ = rel'.nodesOf ⟨2, 0⟩ := middle.others _ valid_root fun same => by cases same
  refine ⟨?_, fun place small => ?_⟩
  · rw [Fork.avail, root, Fork.top, own]
    exact promised
  · rw [Fork.avail, own, child slot inside place small]
    exact exactly place small

theorem vacuumSlot_root (here : rel.Exists ⟨2, 0⟩) (low : i < slotsPerFSMPage) (done : RootDone rel i state) :
    RootDone rel (i + 1) (vacuumSlot (fun rel logpageno => fsmVacuumPage 1 rel logpageno) ⟨2, 0⟩ i state) := by
  obtain ⟨eof, rel'⟩ := state
  have still : rel'.Exists ⟨2, 0⟩ := (exists_congr done.blocks _).mpr here
  have valid := valid_middle low
  cases eof with
  | true =>
    obtain ⟨sets, blocks⟩ := fixSlot_spec done.consistent valid_root still low 0
    have missing := mt (exists_congr done.blocks ⟨1, i⟩).mp (done.behind rfl i le_rfl low)
    refine done.set sets blocks low (fun slot small => ?_) (top_missing missing).symm fun _ slot after small =>
      done.behind rfl slot (by omega) small
    rw [avail_missing missing, top_missing (missing_below valid small missing)]
  | false =>
    have numbered : (fsmGetChild ⟨2, 0⟩ i).logpageno = i := by
      rw [fsmGetChild, Nat.zero_mul, Nat.zero_add]
    obtain ⟨middle, promised, ended⟩ := vacuum_middle done.consistent valid
    obtain ⟨kept, exactly⟩ := done.vacuumed low middle
    obtain ⟨sets, blocks⟩ := fixSlot_spec kept.consistent valid_root
      ((exists_congr kept.blocks _).mpr here) low (fsmVacuumPage 1 rel' i).1.1
    rw [vacuumSlot, numbered]
    refine kept.set sets blocks low exactly promised fun eof slot after small => ?_
    have missing := mt (exists_congr done.blocks ⟨1, i⟩).mpr (ended.mp eof)
    have first : ¬ rel.Exists ⟨1, 0 * slotsPerFSMPage + i⟩ := by rwa [Nat.zero_mul, Nat.zero_add]
    have later := missing_next valid_root (Nat.le_of_succ_le after) small first
    rwa [Nat.zero_mul, Nat.zero_add] at later

/-- All upper pages say what the pages below them promise. -/
structure Exact (rel : Fork) : Prop where
  middle : ∀ n < slotsPerFSMPage, MiddleExact rel n
  root : ∀ n < slotsPerFSMPage, rel.avail ⟨2, 0⟩ n = rel.top ⟨1, n⟩

theorem missing_all (missing : ¬ rel.Exists ⟨2, 0⟩) (addr : FSMAddress) : ¬ rel.Exists addr := by
  rw [Fork.Exists, physical_root] at missing
  rw [Fork.Exists]
  omega

theorem vacuum_exact (consistent : rel.Consistent) :
    (freeSpaceMapVacuum rel).Consistent ∧ Exact (freeSpaceMapVacuum rel) ∧
      ∀ n < slotsPerFSMPage * slotsPerFSMPage, (freeSpaceMapVacuum rel).nodesOf ⟨0, n⟩ = rel.nodesOf ⟨0, n⟩ := by
  rw [freeSpaceMapVacuum, fsmRootLevel_eq]
  by_cases here : rel.Exists ⟨2, 0⟩
  · have first : RootDone rel 0 (false, rel) :=
      ⟨rfl, consistent, fun _ _ => rfl, fun _ wrong => absurd wrong (Nat.not_lt_zero _), nofun⟩
    have last := forUp_invariant (Nat.zero_le slotsPerFSMPage) first
      (fun i state _ low done => vacuumSlot_root here low done)
    generalize loop : forUp 0 slotsPerFSMPage
      (vacuumSlot (fun rel logpageno => fsmVacuumPage 1 rel logpageno) ⟨2, 0⟩) (false, rel) = state at last
    obtain ⟨eof, rel'⟩ := state
    have still : rel'.Exists ⟨2, 0⟩ := (exists_congr last.blocks _).mpr here
    have same := reset_sameNodes valid_root still
    rw [vacuum_upper here (congrArg Prod.snd loop)]
    refine ⟨last.consistent.sameNodes same, ⟨fun n low slot small => ?_, fun n low => ?_⟩, fun n low => ?_⟩
    · rw [same.avail (valid_middle low), Fork.top, same _ ((valid_middle low).child small)]
      exact (last.done n low).2 slot small
    · rw [same.avail valid_root, Fork.top, same _ (valid_middle low)]
      exact (last.done n low).1
    · exact (same _ (valid_bottom low)).trans (last.bottom n low)
  · rw [vacuum_missing here]
    have missing := missing_all here
    refine ⟨consistent, ⟨fun n _ slot _ => ?_, fun n _ => ?_⟩, fun n _ => rfl⟩
    · rw [avail_missing (missing _), top_missing (missing _)]
    · rw [avail_missing (missing _), top_missing (missing _)]

theorem Tracks.vacuum (tracks : Tracks rel recorded) :
    Tracks (freeSpaceMapVacuum rel) recorded ∧ Exact (freeSpaceMapVacuum rel) := by
  obtain ⟨consistent, exactly, bottom⟩ := vacuum_exact tracks.consistent
  refine ⟨⟨consistent, fun n low slot small => ?_, tracks.bounded⟩, exactly⟩
  rw [Fork.avail, bottom n low]
  exact tracks.bottom n low slot small

theorem Exact.promised (exactly : Exact rel) (consistent : rel.Consistent) (minCat : Nat) : Promised rel minCat := by
  rintro addr slot n valid ⟨low, small, above⟩ ⟨place, inside, room⟩
  have top := room.trans (consistent.le_top (valid_bottom low) inside)
  -- the slot of the middle page above the bottom page
  have middle : minCat ≤ rel.avail ⟨1, n / slotsPerFSMPage⟩ (n % slotsPerFSMPage) := by
    rw [exactly.middle _ (Nat.div_lt_of_lt_mul low) _ (Nat.mod_lt _ slots_pos), Nat.div_add_mod']
    exact top
  obtain ⟨level, logpageno⟩ := addr
  rcases above with ⟨rfl, rfl⟩ | ⟨rfl, rfl⟩
  · rwa [child_div small, child_mod small] at middle
  · obtain rfl : logpageno = 0 := by
      have := valid.physical
      dsimp only at this
      omega
    grind [root, Fork.Consistent.le_top, valid_middle, Nat.mod_lt]

theorem Exact.not_broken (exactly : Exact rel) (consistent : rel.Consistent) (pos : 0 < minCat) :
    Broken rel minCat [] := by
  rintro ⟨level, logpageno⟩ slot valid upper small promised nothing
  have room : ∃ n, Above ⟨level, logpageno⟩ slot n ∧ minCat ≤ rel.top ⟨0, n⟩ := by
    rcases valid with ⟨bottom, -⟩ | ⟨rfl, low⟩ | ⟨rfl, rfl⟩
    · exact absurd bottom upper
    · rw [exactly.middle _ low _ small] at promised
      exact ⟨_, ⟨child_lt low small, small, Or.inl ⟨rfl, rfl⟩⟩, promised⟩
    · rw [exactly.root _ small] at promised
      obtain ⟨place, inside, holds⟩ := consistent.exists_slot (valid_middle small) pos promised
      rw [exactly.middle _ small _ inside] at holds
      exact ⟨_, ⟨child_lt small inside, small, Or.inr ⟨rfl, child_div inside⟩⟩, holds⟩
  obtain ⟨n, above, holds⟩ := room
  exact absurd (consistent.exists_slot (valid_bottom above.1) pos holds) (nothing n above)

end Vacuum

section Recording

variable {rel : Fork}

theorem Tracks.record (tracks : Tracks rel recorded) (low : heapBlk < 2 ^ 32 - 1)
    (sets : Sets rel rel' (fsmGetLocation heapBlk).1 (fsmGetLocation heapBlk).2 value) :
    Tracks rel' (update recorded heapBlk value) := by
  refine ⟨sets.consistent, fun n inside slot small => ?_, fun block high => ?_⟩
  · by_cases own : n * slotsPerFSMPage + slot = heapBlk
    · grind [Sets.own, fsmGetLocation, child_div, child_mod]
    · rw [update_of_ne own, sets.avail (valid_bottom inside) small fun same => own ?_]
      · exact tracks.bottom n inside slot small
      · grind [fsmGetLocation, Nat.div_add_mod']
  · rw [update_of_ne (by omega)]
    exact tracks.bounded block high

theorem nodesOf_cut (rel : Fork) (shorter : count ≤ rel.nblocks) (addr : FSMAddress) :
    Fork.nodesOf { rel with nblocks := count } addr =
      if fsmLogicalToPhysical addr < count then rel.nodesOf addr else fun _ => 0 := by
  by_cases inside : fsmLogicalToPhysical addr < count
  · have here : rel.Exists addr := inside.trans_le shorter
    rw [if_pos inside, nodesOf_exists here]
    exact if_pos inside
  · rw [if_neg inside]
    exact if_neg inside

theorem Fork.Consistent.cut (consistent : rel.Consistent) (shorter : count ≤ rel.nblocks) :
    Fork.Consistent { rel with nblocks := count } := by
  intro addr valid
  rw [nodesOf_cut _ shorter]
  split
  · exact consistent addr valid
  · exact consistent_zeroed

theorem consistent_write (consistent : rel.Consistent) (valid : Valid addr) (here : rel.Exists addr)
    (own : Consistent page) : (rel.write addr page).Consistent := by
  intro other known
  rw [nodesOf_write valid here _ known]
  split
  · exact own
  · exact consistent other known

theorem physical_lt_iff (low : nblocks < 2 ^ 32) (small : n < slotsPerFSMPage * slotsPerFSMPage) :
    fsmLogicalToPhysical ⟨0, n⟩ < fsmLogicalToPhysical (fsmGetLocation nblocks).1 ↔ n < nblocks / slotsPerFSMPage := by
  have left := (valid_bottom small).physical
  have right := (valid_location low).1.physical
  dsimp only [fsmGetLocation] at left right ⊢
  omega

theorem before_iff (small : slot < slotsPerFSMPage) : n * slotsPerFSMPage + slot < nblocks ↔
    n < nblocks / slotsPerFSMPage ∨ n = nblocks / slotsPerFSMPage ∧ slot < nblocks % slotsPerFSMPage := by
  rw [slotsPerFSMPage_eq] at small ⊢
  omega

def forget (recorded : Nat → Nat) (nblocks block : Nat) : Nat := if nblocks ≤ block then 0 else recorded block

theorem Tracks.forgotten (tracks : Tracks rel recorded) (consistent : rel'.Consistent)
    (before : ∀ n < slotsPerFSMPage * slotsPerFSMPage, ∀ slot < slotsPerFSMPage,
      n * slotsPerFSMPage + slot < nblocks → rel'.avail ⟨0, n⟩ slot = rel.avail ⟨0, n⟩ slot)
    (behind : ∀ n < slotsPerFSMPage * slotsPerFSMPage, ∀ slot < slotsPerFSMPage,
      nblocks ≤ n * slotsPerFSMPage + slot → rel'.avail ⟨0, n⟩ slot = 0) : Tracks rel' (forget recorded nblocks) := by
  constructor <;> grind [forget, bottom, bounded]

theorem truncate_missing (missing : ¬ rel.Exists (fsmGetLocation nblocks).1) :
    freeSpaceMapTruncateRel rel nblocks = rel := by
  have short : rel.nblocks ≤ fsmLogicalToPhysical (fsmGetLocation nblocks).1 := Nat.le_of_not_lt missing
  simp only [freeSpaceMapTruncateRel, if_neg missing, if_pos short, ite_self]

theorem Tracks.truncate_part (tracks : Tracks rel recorded) (low : nblocks < 2 ^ 32)
    (here : rel.Exists (fsmGetLocation nblocks).1) (part : (fsmGetLocation nblocks).2 > 0) :
    Tracks (freeSpaceMapTruncateRel rel nblocks) (forget recorded nblocks) := by
  obtain ⟨valid, inside⟩ := valid_location low
  have present : rel.nblocks ≠ 0 := Nat.ne_of_gt (Nat.zero_lt_of_lt here)
  have own : Consistent (rel.pageAt (fsmGetLocation nblocks).1) := by
    have := tracks.consistent _ valid
    rwa [nodesOf_exists here] at this
  obtain ⟨kept, cleared⟩ := fsmTruncateAvail_spec own inside.le
  rw [freeSpaceMapTruncateRel, if_neg present, if_pos part, if_pos here]
  generalize (fsmTruncateAvail (rel.pageAt (fsmGetLocation nblocks).1) (fsmGetLocation nblocks).2).2 =
    page at kept cleared
  have written := consistent_write tracks.consistent valid here kept
  have shorter : fsmLogicalToPhysical (fsmGetLocation nblocks).1 + 1 ≤ rel.nblocks := here
  -- the nodes of a bottom page in the shortened file
  have nodes : ∀ n < slotsPerFSMPage * slotsPerFSMPage, Fork.nodesOf { rel.write (fsmGetLocation nblocks).1 page with
      nblocks := fsmLogicalToPhysical (fsmGetLocation nblocks).1 + 1 } ⟨0, n⟩ =
        if n < nblocks / slotsPerFSMPage then rel.nodesOf ⟨0, n⟩
        else if n = nblocks / slotsPerFSMPage then page.fpNodes else fun _ => 0 := by
    grind [nodesOf_cut, Fork.write, fsmGetLocation, nodesOf_write, valid_bottom, physical_lt_iff,
      Nat.lt_succ_of_lt, physical_inj]
  refine tracks.forgotten (written.cut shorter) (fun n small slot low before => ?_) fun n small slot low behind => ?_
  · rw [Fork.avail, nodes n small]
    rcases (before_iff low).mp before with earlier | ⟨rfl, first⟩
    · rw [if_pos earlier, Fork.avail]
    · rw [if_neg (Nat.lt_irrefl _), if_pos rfl, Fork.avail]
      have value := cleared slot low
      rw [fsmGetLocation, if_neg (Nat.not_le.mpr first)] at value
      have stored : rel.Exists ⟨0, nblocks / slotsPerFSMPage⟩ := here
      rw [nodesOf_exists stored]
      exact value
  · rw [Fork.avail, nodes n small]
    have after := mt (before_iff low).mpr (Nat.not_lt.mpr behind)
    by_cases last : n = nblocks / slotsPerFSMPage
    · have value := cleared slot low
      rw [fsmGetLocation, if_pos (by omega)] at value
      rw [if_neg (by omega), if_pos last]
      exact value
    · rw [if_neg (by omega), if_neg last]

theorem Tracks.truncate (tracks : Tracks rel recorded) (low : nblocks < 2 ^ 32) :
    Tracks (freeSpaceMapTruncateRel rel nblocks) (forget recorded nblocks) := by
  by_cases here : rel.Exists (fsmGetLocation nblocks).1
  · by_cases part : (fsmGetLocation nblocks).2 > 0
    · exact tracks.truncate_part low here part
    · have present : rel.nblocks ≠ 0 := Nat.ne_of_gt (Nat.zero_lt_of_lt here)
      have long : ¬ rel.nblocks ≤ fsmLogicalToPhysical (fsmGetLocation nblocks).1 := Nat.not_le.mpr here
      have whole : nblocks % slotsPerFSMPage = 0 := Nat.eq_zero_of_not_pos part
      rw [freeSpaceMapTruncateRel, if_neg present, if_neg part, if_neg long]
      have shorter : fsmLogicalToPhysical (fsmGetLocation nblocks).1 ≤ rel.nblocks := Nat.le_of_lt here
      refine tracks.forgotten (tracks.consistent.cut shorter) (fun n small slot inside before => ?_)
        fun n small slot inside behind => ?_
      · have first := (before_iff inside).mp before
        rw [Fork.avail, nodesOf_cut _ shorter, if_pos ((physical_lt_iff low small).mpr (by omega)), Fork.avail]
      · have after := mt (before_iff inside).mpr (Nat.not_lt.mpr behind)
        grind [Fork.avail, nodesOf_cut, physical_lt_iff]
  · rw [truncate_missing here]
    refine tracks.forgotten tracks.consistent (fun _ _ _ _ _ => rfl) fun n small slot inside behind => ?_
    have after := mt (before_iff inside).mpr (Nat.not_lt.mpr behind)
    have later := mt (physical_lt_iff low small).mp fun before => after (Or.inl before)
    exact avail_missing (fun stored => here (lt_of_le_of_lt (Nat.le_of_not_lt later) stored)) slot

end Recording

section Runs

/-- The category of a block is written down. -/
def note (recorded : Nat → Nat) : Option (Nat × Nat) → Nat → Nat
  | some (heapBlk, cat) => update recorded heapBlk cat
  | none => recorded

/-- The operations on the map of one relation. -/
inductive MapOp where
  | recordPage (heapBlk : Fin (2 ^ 32 - 1)) (spaceAvail : Nat)
  | recordAndGet (oldPage : Fin (2 ^ 32 - 1)) (oldSpaceAvail spaceNeeded : Nat)
  | getPage (spaceNeeded : Nat)
  | vacuum
  | truncateRel (nblocks : Fin (2 ^ 32))

namespace MapOp

/-- The block a search returns and the map it leaves. -/
def apply (rel : Fork) : MapOp → Option Nat × Fork
  | recordPage heapBlk spaceAvail => (none, recordPageWithFreeSpace rel heapBlk spaceAvail)
  | recordAndGet oldPage oldSpaceAvail spaceNeeded =>
    recordAndGetPageWithFreeSpace rel oldPage oldSpaceAvail spaceNeeded
  | getPage spaceNeeded => getPageWithFreeSpace rel spaceNeeded
  | vacuum => (none, freeSpaceMapVacuum rel)
  | truncateRel nblocks => (none, freeSpaceMapTruncateRel rel nblocks)

/-- The category a search requests; one that asks for too much is refused. -/
def requested : MapOp → Option Nat
  | recordAndGet _ _ spaceNeeded => fsmSpaceNeededToCat spaceNeeded
  | getPage spaceNeeded => fsmSpaceNeededToCat spaceNeeded
  | _ => none

def records : MapOp → Option (Nat × Nat)
  | recordPage heapBlk spaceAvail => some (heapBlk, fsmSpaceAvailToCat spaceAvail)
  | recordAndGet oldPage oldSpaceAvail spaceNeeded =>
    (fsmSpaceNeededToCat spaceNeeded).map fun _ => (oldPage, fsmSpaceAvailToCat oldSpaceAvail)
  | _ => none

/-- What is recorded for the blocks, kept without any map. -/
def keep (recorded : Nat → Nat) : MapOp → Nat → Nat
  | truncateRel nblocks => forget recorded nblocks
  | op => note recorded op.records

end MapOp

theorem needed_pos (cat : fsmSpaceNeededToCat needed = some minCat) : 0 < minCat := by
  have step : fsmCatStep = 32 := rfl
  grind [fsmSpaceNeededToCat]

theorem requested_pos {op : MapOp} (asks : op.requested = some minCat) : 0 < minCat := by
  cases op with
  | recordAndGet => exact needed_pos asks
  | getPage => exact needed_pos asks
  | _ => exact nomatch asks

variable {rel : Fork}

theorem Tracks.room (tracks : Tracks rel recorded) (pos : 0 < minCat) (enough : minCat ≤ recorded block) :
    block / slotsPerFSMPage < slotsPerFSMPage * slotsPerFSMPage ∧ HasRoom rel minCat (block / slotsPerFSMPage) := by
  have low : block < 2 ^ 32 - 1 := by
    grind [bounded]
  have page : block / slotsPerFSMPage < slotsPerFSMPage * slotsPerFSMPage := by
    rw [slotsPerFSMPage_eq]
    omega
  have small := Nat.mod_lt block slots_pos
  refine ⟨page, block % slotsPerFSMPage, small, ?_⟩
  rwa [tracks.bottom _ page _ small, Nat.div_add_mod']

theorem search_complete (tracks : Tracks rel recorded) (exactly : Exact rel) (pos : 0 < minCat)
    (enough : minCat ≤ recorded block) : (fsmSearch rel minCat).1.isSome := by
  obtain ⟨low, room⟩ := tracks.room pos enough
  exact searchLoop_complete tracks.consistent pos (exactly.promised tracks.consistent minCat)
    (exactly.not_broken tracks.consistent pos) (Nat.zero_le _) low room

/-- A bottom page that has just been set to keep too little breaks at most the two slots above it. -/
theorem Exact.set_bottom (exactly : Exact rel) (consistent : rel.Consistent) (pos : 0 < minCat)
    (sets : Sets rel rel' ⟨0, page⟩ slot value) (less : ∀ slot < slotsPerFSMPage, rel'.avail ⟨0, page⟩ slot < minCat) :
    Promised rel' minCat ∧ Broken rel' minCat
      [(⟨1, page / slotsPerFSMPage⟩, page % slotsPerFSMPage), (⟨2, 0⟩, page / slotsPerFSMPage)] := by
  have full : ¬ HasRoom rel' minCat page := fun ⟨slot, low, room⟩ => Nat.not_le.mpr (less slot low) room
  have room : ∀ n < slotsPerFSMPage * slotsPerFSMPage, n ≠ page → (HasRoom rel' minCat n ↔ HasRoom rel minCat n) := by
    intro n low apart
    have ne : (⟨0, n⟩ : FSMAddress) ≠ ⟨0, page⟩ := fun same => apart (congrArg FSMAddress.logpageno same)
    simp only [HasRoom, Fork.avail, sets.others _ (valid_bottom low) ne]
  have upper : ∀ addr slot, Valid addr → addr.level ≠ 0 → rel'.avail addr slot = rel.avail addr slot := by
    intro addr slot valid above
    have ne : addr ≠ ⟨0, page⟩ := fun same => above (congrArg FSMAddress.level same)
    rw [Fork.avail, sets.others _ valid ne, Fork.avail]
  constructor
  · intro addr slot n valid above holds
    have apart : n ≠ page := fun same => full (same ▸ holds)
    have level : addr.level ≠ 0 := by
      have := above.2.2
      omega
    rw [upper addr slot valid level]
    exact exactly.promised consistent minCat addr slot n valid above ((room n above.1 apart).mp holds)
  · intro addr slot valid above small promised nothing
    rw [upper addr slot valid above] at promised
    -- the page below the slot that had room can only be the one just set
    have own : Above addr slot page := by
      by_contra elsewhere
      refine List.not_mem_nil (exactly.not_broken consistent pos addr slot valid above small promised ?_)
      intro n below holds
      exact nothing n below ((room n below.1 fun same => elsewhere (same ▸ below)).mpr holds)
    obtain ⟨level, logpageno⟩ := addr
    obtain ⟨-, -, ⟨rfl, rfl⟩ | ⟨rfl, rfl⟩⟩ := own
    · rw [child_div small, child_mod small]
      exact List.mem_cons_self
    · obtain rfl : logpageno = 0 := by
        have := valid.physical
        dsimp only at this
        omega
      exact List.mem_cons_of_mem _ List.mem_cons_self

section

variable (tracks : Tracks rel recorded) (low : oldPage < 2 ^ 32 - 1) (oldSpaceAvail : Nat)
    (cat : fsmSpaceNeededToCat spaceNeeded = some searchCat)
include tracks low oldSpaceAvail cat

theorem recordAndGet_cases : let found := recordAndGetPageWithFreeSpace rel oldPage oldSpaceAvail spaceNeeded
    let addr := (fsmGetLocation oldPage).1
    ∃ rel', Sets rel rel' addr (fsmGetLocation oldPage).2 (fsmSpaceAvailToCat oldSpaceAvail) ∧
      ((∃ slot < slotsPerFSMPage, searchCat ≤ rel'.avail addr slot ∧ found = (some (fsmGetHeapBlk addr slot), rel')) ∨
        (∀ slot < slotsPerFSMPage, rel'.avail addr slot < searchCat) ∧ found = fsmSearch rel' searchCat) := by
  intro found addr
  obtain ⟨valid, small⟩ := valid_location (by omega : oldPage < 2 ^ 32)
  obtain ⟨sets, right⟩ := fsmSetAndSearch_spec tracks.consistent valid small
    (fsmSpaceAvailToCat oldSpaceAvail) searchCat
  have result : found = recordAndGetPageWithFreeSpace rel oldPage oldSpaceAvail spaceNeeded := rfl
  rw [if_neg (needed_pos cat).ne'] at right
  simp only [recordAndGetPageWithFreeSpace, cat] at result
  generalize fsmSetAndSearch rel (fsmGetLocation oldPage).1 (fsmGetLocation oldPage).2
    (fsmSpaceAvailToCat oldSpaceAvail) searchCat = set at sets right result
  refine ⟨set.2, sets, ?_⟩
  rcases right with ⟨none, less⟩ | ⟨slot, inside, answers, enough⟩
  · grind
  · grind

/-- A search returns only blocks with at least the requested category. -/
def Sound (op : MapOp) (recorded : Nat → Nat) (found : Option Nat) : Prop :=
  ∀ heapBlk ∈ found, ∃ minCat, op.requested = some minCat ∧ minCat ≤ op.keep recorded heapBlk

theorem Tracks.recordAndGet : let found := recordAndGetPageWithFreeSpace rel oldPage oldSpaceAvail spaceNeeded
    let recorded := update recorded oldPage (fsmSpaceAvailToCat oldSpaceAvail)
    Recorded recorded searchCat found.1 ∧ Tracks found.2 recorded ∧
      (Exact rel → ∀ block, searchCat ≤ recorded block → found.1.isSome) := by
  intro found recorded
  have pos := needed_pos cat
  have page : oldPage / slotsPerFSMPage < slotsPerFSMPage * slotsPerFSMPage := by
    rw [slotsPerFSMPage_eq]
    omega
  obtain ⟨rel', sets, ⟨slot, inside, enough, result⟩ | ⟨less, result⟩⟩ :=
    recordAndGet_cases tracks low oldSpaceAvail cat
  · have after := tracks.record low sets
    rw [show found = _ from result]
    exact ⟨after.found pos page inside enough, after, fun _ _ _ => rfl⟩
  · have after := tracks.record low sets
    obtain ⟨sound, kept⟩ := searchLoop_sound after pos
    rw [show found = _ from result]
    refine ⟨sound, kept, fun exactly block enough => ?_⟩
    obtain ⟨promised, broken⟩ := exactly.set_bottom tracks.consistent pos sets less
    obtain ⟨known, room⟩ := after.room pos enough
    exact searchLoop_complete after.consistent pos promised broken (show 2 ≤ 10001 by decide) known room

end

theorem Tracks.apply (tracks : Tracks rel recorded) (op : MapOp) :
    Tracks (op.apply rel).2 (op.keep recorded) ∧ Sound op recorded (op.apply rel).1 := by
  have silent : ∀ op, Sound op recorded none := nofun
  cases op with
  | recordPage heapBlk spaceAvail =>
    obtain ⟨valid, small⟩ := valid_location (by omega : heapBlk.val < 2 ^ 32)
    obtain ⟨sets, -⟩ := fsmSetAndSearch_spec tracks.consistent valid small (fsmSpaceAvailToCat spaceAvail) 0
    exact ⟨tracks.record heapBlk.isLt sets, silent _⟩
  | recordAndGet oldPage oldSpaceAvail spaceNeeded =>
    cases cat : fsmSpaceNeededToCat spaceNeeded with
    | none =>
      grind [MapOp.apply, MapOp.keep, MapOp.records, note, recordAndGetPageWithFreeSpace]
    | some searchCat =>
      obtain ⟨sound, kept, -⟩ := tracks.recordAndGet oldPage.isLt oldSpaceAvail cat
      have keeps : (MapOp.recordAndGet oldPage oldSpaceAvail spaceNeeded).keep recorded =
          update recorded oldPage (fsmSpaceAvailToCat oldSpaceAvail) := by
        simp only [MapOp.keep, MapOp.records, cat, Option.map_some, note]
      rw [Sound, keeps]
      exact ⟨kept, fun heapBlk found => ⟨searchCat, cat, (sound heapBlk found).2⟩⟩
  | getPage spaceNeeded =>
    cases cat : fsmSpaceNeededToCat spaceNeeded with
    | none =>
      simp only [MapOp.apply, MapOp.keep, MapOp.records, note, getPageWithFreeSpace, cat]
      exact ⟨tracks, silent _⟩
    | some minCat =>
      obtain ⟨sound, kept⟩ := searchLoop_sound tracks (needed_pos cat)
      simp only [MapOp.apply, getPageWithFreeSpace, cat]
      exact ⟨kept, fun heapBlk found => ⟨minCat, cat, (sound heapBlk found).2⟩⟩
  | vacuum => exact ⟨tracks.vacuum.1, silent _⟩
  | truncateRel nblocks => exact ⟨tracks.truncate nblocks.isLt, silent _⟩

theorem Exact.search_iff (exactly : Exact rel) (tracks : Tracks rel recorded) (op : MapOp)
    (asks : op.requested = some minCat) : (op.apply rel).1.isSome ↔ ∃ heapBlk, minCat ≤ op.keep recorded heapBlk := by
  constructor
  · intro found
    obtain ⟨heapBlk, returns⟩ := Option.isSome_iff_exists.mp found
    obtain ⟨cat, same, enough⟩ := (tracks.apply op).2 heapBlk returns
    grind
  · rintro ⟨heapBlk, enough⟩
    cases op with
    | recordPage => exact nomatch asks
    | recordAndGet oldPage oldSpaceAvail spaceNeeded =>
      simp only [MapOp.requested] at asks
      simp only [MapOp.keep, MapOp.records, asks, Option.map_some, note] at enough
      exact (tracks.recordAndGet oldPage.isLt oldSpaceAvail asks).2.2 exactly heapBlk enough
    | getPage spaceNeeded =>
      simp only [MapOp.requested] at asks
      simp only [MapOp.apply, getPageWithFreeSpace, asks]
      exact search_complete tracks exactly (needed_pos asks) enough
    | vacuum => exact nomatch asks
    | truncateRel => exact nomatch asks

theorem note_pos (written : Option (Nat × Nat)) (keeps : 0 < note recorded written heapBlk) :
    0 < recorded heapBlk ∨ ∃ cat, written = some (heapBlk, cat) := by
  cases written with
  | none => exact Or.inl keeps
  | some written =>
    obtain ⟨block, cat⟩ := written
    rw [note] at keeps
    by_cases own : heapBlk = block
    · exact Or.inr ⟨cat, by rw [own]⟩
    · rw [update_of_ne own] at keeps
      exact Or.inl keeps

theorem keep_pos (op : MapOp) (keeps : 0 < op.keep recorded heapBlk) :
    0 < recorded heapBlk ∨ ∃ cat, op.records = some (heapBlk, cat) := by
  cases op with
  | truncateRel nblocks =>
    rw [MapOp.keep, forget] at keeps
    grind
  | _ => exact note_pos _ keeps

theorem run_keep_pos (ops : List MapOp) (keeps : 0 < run MapOp.keep recorded ops heapBlk) :
    0 < recorded heapBlk ∨ ∃ op ∈ ops, ∃ cat, op.records = some (heapBlk, cat) := by
  induction ops generalizing recorded with
  | nil => exact Or.inl keeps
  | cons op ops ih =>
    rcases ih keeps with before | ⟨again, mem, records⟩
    · grind [keep_pos]
    · grind

/-- The map of a relation before its first page is written. -/
def emptyFork (page : Nat → FSMPage) : Fork := ⟨0, page⟩

theorem tracks_empty (page : Nat → FSMPage) : Tracks (emptyFork page) (fun _ => 0) := by
  have missing : ∀ addr, ¬ (emptyFork page).Exists addr := fun addr => Nat.not_lt_zero _
  refine ⟨fun addr _ => ?_, fun n _ slot _ => avail_missing (missing _) slot, fun _ _ => rfl⟩
  rw [nodesOf_missing (missing addr)]
  exact consistent_zeroed

/-- After any operations a search returns only a block with at least the requested category, and
none at or behind the end of a truncation unless it was recorded again; right after a vacuum it
finds a block exactly if one with enough is recorded. -/
theorem free_space_map_correct (page : Nat → FSMPage) (ops : List MapOp) (op : MapOp) :
    let rel := run (fun rel op => (op.apply rel).2) (emptyFork page) ops
    let recorded := run MapOp.keep (fun _ => 0) (ops ++ [op])
    let found := (op.apply rel).1
    (∀ heapBlk ∈ found, ∃ minCat, op.requested = some minCat ∧ minCat ≤ recorded heapBlk) ∧
    (∀ before later (nblocks : Fin (2 ^ 32)), ops = before ++ .truncateRel nblocks :: later →
      ∀ heapBlk ∈ found, nblocks.val ≤ heapBlk → ∃ again ∈ later ++ [op], ∃ cat, again.records = some (heapBlk, cat)) ∧
    ∀ before, ops = before ++ [.vacuum] → ∀ minCat, op.requested = some minCat →
      (found.isSome ↔ ∃ heapBlk, minCat ≤ recorded heapBlk) := by
  intro rel recorded found
  have follows : ∀ ops, Tracks (run (fun rel (op : MapOp) => (op.apply rel).2) (emptyFork page) ops)
      (run MapOp.keep (fun _ => 0) ops) :=
    run_simulates (tracks_empty page) fun _ _ op tracks => (tracks.apply op).1
  have last : recorded = op.keep (run MapOp.keep (fun _ => 0) ops) := run_append _ _ ops [op]
  have sound : Sound op (run MapOp.keep (fun _ => 0) ops) found := ((follows ops).apply op).2
  rw [Sound, ← last] at sound
  refine ⟨sound, ?_, ?_⟩
  · rintro before later nblocks rfl heapBlk returned behind
    obtain ⟨minCat, asks, enough⟩ := sound heapBlk returned
    have pos := requested_pos asks
    have split : recorded = run MapOp.keep (forget (run MapOp.keep (fun _ => 0) before) nblocks) (later ++ [op]) := by
      simp only [recorded, List.append_assoc, List.cons_append]
      exact run_append _ _ before _
    rw [split] at enough
    grind [run_keep_pos, forget]
  · rintro before rfl minCat asks
    rw [last]
    refine Exact.search_iff ?_ (follows _) op asks
    have done : rel = freeSpaceMapVacuum (run (fun rel (op : MapOp) => (op.apply rel).2) (emptyFork page) before) :=
      run_append _ _ before [.vacuum]
    rw [show run (fun rel (op : MapOp) => (op.apply rel).2) (emptyFork page) (before ++ [.vacuum]) = _ from done]
    exact (follows before).vacuum.2

end Runs

end BlockchainPG.Storage.Fsm
