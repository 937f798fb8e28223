import BlockchainPG.Storage.FreeSpace

/-! Searches in the map, which mend promises that are too high on the way. -/

namespace BlockchainPG.Storage.Fsm

open Lib Function Fork

section Descents

variable {rel : Fork} {minCat : Nat}

theorem Fork.SameNodes.avail (same : Fork.SameNodes rel rel') (valid : Valid addr) (slot : Nat) :
    rel'.avail addr slot = rel.avail addr slot := by
  rw [Fork.avail, same addr valid, Fork.avail]

theorem Fork.SameNodes.trans (first : Fork.SameNodes rel rel') (second : Fork.SameNodes rel' rel'') :
    Fork.SameNodes rel rel'' := fun addr valid => (second addr valid).trans (first addr valid)

/-- What holds of the end of a way down that began at a page. -/
def DescentOk (rel : Fork) (minCat : Nat) (start : FSMAddress) : Descent → Prop
  | .found heapBlk => ∃ n slot, n < slotsPerFSMPage * slotsPerFSMPage ∧ slot < slotsPerFSMPage ∧
      heapBlk = fsmGetHeapBlk ⟨0, n⟩ slot ∧ minCat ≤ rel.avail ⟨0, n⟩ slot
  | .failed addr maxAvail => Valid addr ∧ maxAvail = rel.top addr ∧
      (∀ slot < slotsPerFSMPage, rel.avail addr slot < minCat) ∧
      (addr = start ∨ Valid (fsmGetParent addr).1 ∧ (fsmGetParent addr).2 < slotsPerFSMPage ∧
        minCat ≤ rel.avail (fsmGetParent addr).1 (fsmGetParent addr).2)

theorem DescentOk.congr (same : Fork.SameNodes rel rel') (ok : DescentOk rel' minCat start descent) :
    DescentOk rel minCat start descent := by
  cases descent with
  | found heapBlk =>
    obtain ⟨n, slot, low, small, block, holds⟩ := ok
    exact ⟨n, slot, low, small, block, same.avail (valid_bottom low) slot ▸ holds⟩
  | failed addr maxAvail =>
    obtain ⟨valid, promised, less, origin⟩ := ok
    refine ⟨valid, ?_, fun slot low => same.avail valid slot ▸ less slot low, ?_⟩
    · rw [promised, Fork.top, same addr valid, Fork.top]
    · grind [Fork.SameNodes.avail]

theorem searchPage_write (consistent : rel.Consistent) (valid : Valid addr) (here : rel.Exists addr)
    (minCat : Nat) (advancenext : Bool) : let found := searchPage (rel.pageAt addr) minCat advancenext
    Fork.SameNodes rel (rel.write addr found.2) ∧ RightAt rel addr minCat found.1 ∧
      fsmGetMaxAvail found.2 = rel.top addr := by
  have own : Consistent (rel.pageAt addr) := by
    have := consistent addr valid
    rwa [nodesOf_exists here] at this
  obtain ⟨answer, next, result, right⟩ := searchPage_spec own minCat advancenext
  simp only [result]
  have same : Fork.SameNodes rel (rel.write addr { rel.pageAt addr with fpNextSlot := next }) := by
    intro other known
    grind [nodesOf_write, nodesOf_exists]
  refine ⟨same, ?_, ?_⟩
  · have written := rightAt_write valid here right next
    simpa only [RightAt, same.avail valid] using written
  · rw [Fork.top, nodesOf_exists here]
    rfl

theorem descend_eq (minCat level : Nat) (rel : Fork) (logpageno : Nat) : descend minCat level rel logpageno =
      if rel.Exists ⟨level, logpageno⟩ then
        let found := searchPage (rel.pageAt ⟨level, logpageno⟩) minCat (level = 0)
        let rel := rel.write ⟨level, logpageno⟩ found.2
        if found.1 ≠ -1 then
          match level with
          | 0 => (.found (fsmGetHeapBlk ⟨0, logpageno⟩ found.1.toNat), rel)
          | level + 1 => descend minCat level rel (logpageno * slotsPerFSMPage + found.1.toNat)
        else (.failed ⟨level, logpageno⟩ (fsmGetMaxAvail found.2), rel)
      else (.failed ⟨level, logpageno⟩ 0, rel) := by
  rw [descend.eq_def]
  by_cases here : rel.Exists ⟨level, logpageno⟩
  · simp only [Fork.fsmReadbuf, if_pos here]
    cases level <;> rfl
  · simp only [Fork.fsmReadbuf, if_neg here]

theorem descend_spec (consistent : rel.Consistent) (pos : 0 < minCat) (valid : Valid ⟨level, n⟩) :
    Fork.SameNodes rel (descend minCat level rel n).2 ∧
      DescentOk rel minCat ⟨level, n⟩ (descend minCat level rel n).1 := by
  induction level using Nat.strong_induction_on generalizing rel n with
  | _ level ih =>
    rw [descend_eq]
    by_cases here : rel.Exists ⟨level, n⟩
    · obtain ⟨same, right, promised⟩ := searchPage_write consistent valid here minCat (decide (level = 0))
      rw [if_pos here]
      dsimp only at same right promised ⊢
      rcases right with ⟨none, less⟩ | ⟨slot, low, answer, holds⟩
      · rw [if_neg (not_not.mpr none)]
        exact ⟨same, valid, promised, less, Or.inl rfl⟩
      · have found : (searchPage (rel.pageAt ⟨level, n⟩) minCat (decide (level = 0))).1 ≠ -1 := by omega
        rw [if_pos found, answer, Int.toNat_natCast]
        cases level with
        | zero =>
          refine ⟨same, n, slot, ?_, low, rfl, holds⟩
          rcases valid with ⟨-, small⟩ | ⟨wrong, -⟩ | ⟨wrong, -⟩
          · exact small
          · cases wrong
          · cases wrong
        | succ level =>
          obtain ⟨more, ok⟩ := ih level (Nat.lt_succ_self _) (consistent.sameNodes same) (valid.child low)
          refine ⟨same.trans more, ?_⟩
          have upper := ok.congr same
          cases outcome : (descend minCat level _ (n * slotsPerFSMPage + slot)).1 with
          | found heapBlk => rwa [outcome] at upper
          | failed addr maxAvail =>
            rw [outcome] at upper
            obtain ⟨known, top, less, origin⟩ := upper
            refine ⟨known, top, less, Or.inr ?_⟩
            grind [parent_child]
    · rw [if_neg here]
      refine ⟨fun _ _ => rfl, valid, ?_, fun slot low => ?_, Or.inl rfl⟩
      · rw [Fork.top, nodesOf_missing here]
      · rw [Fork.avail, nodesOf_missing here]
        exact pos

end Descents

section Loops

variable {rel : Fork} {minCat left : Nat} {recorded : Nat → Nat}

theorem searchLoop_found (found : (descend minCat fsmRootLevel rel 0).1 = .found heapBlk) :
    searchLoop minCat left rel = (some heapBlk, (descend minCat fsmRootLevel rel 0).2) := by
  rw [searchLoop.eq_def]
  simp only [found]

theorem searchLoop_failed (failed : (descend minCat fsmRootLevel rel 0).1 = .failed addr maxAvail) :
    searchLoop minCat left rel = if addr.level = fsmRootLevel then (none, (descend minCat fsmRootLevel rel 0).2)
      else match left with
        | 0 => (none, (fsmSetAndSearch (descend minCat fsmRootLevel rel 0).2 (fsmGetParent addr).1
            (fsmGetParent addr).2 maxAvail 0).2)
        | left + 1 =>
          searchLoop minCat left (fsmSetAndSearch (descend minCat fsmRootLevel rel 0).2 (fsmGetParent addr).1
            (fsmGetParent addr).2 maxAvail 0).2 := by
  cases left <;> simp only [searchLoop.eq_def _ _ rel, failed]

/-- The bottom pages hold what was recorded for each block. -/
structure Tracks (rel : Fork) (recorded : Nat → Nat) : Prop where
  consistent : rel.Consistent
  bottom : ∀ n < slotsPerFSMPage * slotsPerFSMPage, ∀ slot < slotsPerFSMPage,
    rel.avail ⟨0, n⟩ slot = recorded (n * slotsPerFSMPage + slot)
  bounded : ∀ block, 2 ^ 32 - 1 ≤ block → recorded block = 0

theorem Tracks.sameNodes (tracks : Tracks rel recorded) (same : Fork.SameNodes rel rel') : Tracks rel' recorded :=
  ⟨tracks.consistent.sameNodes same,
    fun n low slot small => (same.avail (valid_bottom low) slot).trans (tracks.bottom n low slot small), tracks.bounded⟩

theorem Tracks.sets (tracks : Tracks rel recorded) (sets : Sets rel rel' addr slot value) (upper : addr.level ≠ 0) :
    Tracks rel' recorded := by
  refine ⟨sets.consistent, fun n low other small => ?_, tracks.bounded⟩
  have apart : (⟨0, n⟩ : FSMAddress) ≠ addr := fun same => upper (same ▸ rfl)
  rw [Fork.avail, sets.others _ (valid_bottom low) apart]
  exact tracks.bottom n low other small

/-- What a search may return. -/
def Recorded (recorded : Nat → Nat) (minCat : Nat) (result : Option Nat) : Prop :=
  ∀ heapBlk ∈ result, heapBlk < 2 ^ 32 - 1 ∧ minCat ≤ recorded heapBlk

theorem Tracks.found (tracks : Tracks rel recorded) (pos : 0 < minCat) (low : n < slotsPerFSMPage * slotsPerFSMPage)
    (small : slot < slotsPerFSMPage) (holds : minCat ≤ rel.avail ⟨0, n⟩ slot) :
    Recorded recorded minCat (some (fsmGetHeapBlk ⟨0, n⟩ slot)) := by
  intro heapBlk mem
  rw [tracks.bottom n low slot small] at holds
  have inside : n * slotsPerFSMPage + slot < 2 ^ 32 - 1 := by
    grind [bounded]
  grind [fsmGetHeapBlk]

theorem valid_top : Valid ⟨fsmRootLevel, 0⟩ := valid_root

theorem Sets.after (same : Fork.SameNodes rel rel') (sets : Sets rel' rel'' addr slot value) (valid : Valid addr) :
    Sets rel rel'' addr slot value :=
  ⟨sets.consistent, fun other known ne => (sets.others other known ne).trans (same other known), sets.own,
    fun other low ne => (sets.rest other low ne).trans (same.avail valid other)⟩

/-- What one attempt of a search can do: it finds a block, it learns from the root page that there
is none, or it mends a slot above a page that keeps too little and starts again. -/
inductive Attempt (rel rel' : Fork) (minCat : Nat) : Prop where
  | found (same : Fork.SameNodes rel rel') (low : n < slotsPerFSMPage * slotsPerFSMPage)
      (small : slot < slotsPerFSMPage)
      (holds : minCat ≤ rel.avail ⟨0, n⟩ slot)
      (ran : ∀ left, searchLoop minCat left rel = (some (fsmGetHeapBlk ⟨0, n⟩ slot), rel'))
  | nothing (same : Fork.SameNodes rel rel') (less : ∀ slot < slotsPerFSMPage, rel.avail ⟨2, 0⟩ slot < minCat)
      (ran : ∀ left, searchLoop minCat left rel = (none, rel'))
  | mended (valid : Valid addr) (less : ∀ slot < slotsPerFSMPage, rel.avail addr slot < minCat)
      (known : Valid (fsmGetParent addr).1) (low : (fsmGetParent addr).2 < slotsPerFSMPage)
      (promised : minCat ≤ rel.avail (fsmGetParent addr).1 (fsmGetParent addr).2)
      (sets : Sets rel rel' (fsmGetParent addr).1 (fsmGetParent addr).2 (rel.top addr))
      (stops : searchLoop minCat 0 rel = (none, rel'))
      (restarts : ∀ left, searchLoop minCat (left + 1) rel = searchLoop minCat left rel')

theorem searchLoop_attempt (consistent : rel.Consistent) (pos : 0 < minCat) : ∃ rel', Attempt rel rel' minCat := by
  obtain ⟨same, ok⟩ := descend_spec consistent pos valid_top
  cases outcome : (descend minCat fsmRootLevel rel 0).1 with
  | found heapBlk =>
    rw [outcome] at ok
    obtain ⟨n, slot, low, small, rfl, holds⟩ := ok
    exact ⟨_, .found same low small holds fun left => searchLoop_found outcome⟩
  | failed addr maxAvail =>
    rw [outcome] at ok
    obtain ⟨valid, rfl, less, origin⟩ := ok
    by_cases root : addr.level = fsmRootLevel
    · have here : addr = ⟨2, 0⟩ := by
        rcases valid with ⟨level, -⟩ | ⟨level, -⟩ | ⟨level, page⟩
        · cases level.symm.trans root
        · cases level.symm.trans root
        · exact FSMAddress.ext level page
      refine ⟨_, .nothing same (here ▸ less) fun left => ?_⟩
      rw [searchLoop_failed outcome, if_pos root]
    · obtain ⟨known, low, promised⟩ := origin.resolve_left fun start => root (by rw [start])
      have sets := (fsmSetAndSearch_spec (consistent.sameNodes same) known low (rel.top addr) 0).1
      refine ⟨_, .mended valid less known low promised (sets.after same known) ?_ fun left => ?_⟩
      · rw [searchLoop_failed outcome, if_neg root]
      · rw [searchLoop_failed outcome, if_neg root]

theorem searchLoop_sound (tracks : Tracks rel recorded) (pos : 0 < minCat) :
    Recorded recorded minCat (searchLoop minCat left rel).1 ∧ Tracks (searchLoop minCat left rel).2 recorded := by
  have none : Recorded recorded minCat none := nofun
  induction left generalizing rel with
  | zero =>
    obtain ⟨rel', attempt⟩ := searchLoop_attempt tracks.consistent pos
    cases attempt with
    | found same low small holds ran =>
      grind [Tracks.found, Tracks.sameNodes]
    | nothing same less ran =>
      rw [ran]
      exact ⟨none, tracks.sameNodes same⟩
    | mended valid less known low promised sets stops restarts =>
      rw [stops]
      exact ⟨none, tracks.sets sets (Nat.succ_ne_zero _)⟩
  | succ left ih =>
    obtain ⟨rel', attempt⟩ := searchLoop_attempt tracks.consistent pos
    cases attempt with
    | found same low small holds ran =>
      grind
    | nothing same less ran =>
      rw [ran]
      exact ⟨none, tracks.sameNodes same⟩
    | mended valid less known low promised sets stops restarts =>
      rw [restarts]
      exact ih (tracks.sets sets (Nat.succ_ne_zero _))

end Loops

section Promises

variable {rel : Fork} {minCat left : Nat}

def HasRoom (rel : Fork) (minCat n : Nat) : Prop := ∃ slot < slotsPerFSMPage, minCat ≤ rel.avail ⟨0, n⟩ slot

/-- A bottom page lies below a slot of an upper page. -/
def Above (addr : FSMAddress) (slot n : Nat) : Prop :=
  n < slotsPerFSMPage * slotsPerFSMPage ∧ slot < slotsPerFSMPage ∧
    ((addr.level = 1 ∧ n = addr.logpageno * slotsPerFSMPage + slot) ∨ (addr.level = 2 ∧ n / slotsPerFSMPage = slot))

def Promised (rel : Fork) (minCat : Nat) : Prop :=
  ∀ addr slot n, Valid addr → Above addr slot n → HasRoom rel minCat n → minCat ≤ rel.avail addr slot

/-- The slots that promise room where there is none are all listed. -/
def Broken (rel : Fork) (minCat : Nat) (slots : List (FSMAddress × Nat)) : Prop :=
  ∀ addr slot, Valid addr → addr.level ≠ 0 → slot < slotsPerFSMPage → minCat ≤ rel.avail addr slot →
    (∀ n, Above addr slot n → ¬ HasRoom rel minCat n) → (addr, slot) ∈ slots

theorem Sets.hasRoom (sets : Sets rel rel' addr slot value) (upper : addr.level ≠ 0)
    (low : n < slotsPerFSMPage * slotsPerFSMPage) : HasRoom rel' minCat n ↔ HasRoom rel minCat n := by
  have apart : (⟨0, n⟩ : FSMAddress) ≠ addr := fun same => upper (same ▸ rfl)
  simp only [HasRoom, Fork.avail, sets.others _ (valid_bottom low) apart]

theorem Sets.avail (sets : Sets rel rel' addr slot value) (valid : Valid other) (low : place < slotsPerFSMPage)
    (apart : (other, place) ≠ (addr, slot)) : rel'.avail other place = rel.avail other place := by
  by_cases same : other = addr
  · grind [rest]
  · rw [Fork.avail, sets.others other valid same, Fork.avail]

theorem Promised.none_below (promised : Promised rel minCat) (valid : Valid addr)
    (less : ∀ slot < slotsPerFSMPage, rel.avail addr slot < minCat)
    (above : Above (fsmGetParent addr).1 (fsmGetParent addr).2 n) : ¬ HasRoom rel minCat n := by
  have size := slotsPerFSMPage_eq
  intro room
  obtain ⟨low, -, ⟨level, page⟩ | ⟨level, page⟩⟩ := above
  · -- the page itself is the bottom page
    have same : addr = ⟨0, n⟩ := by
      refine FSMAddress.ext (by simpa [fsmGetParent] using level) ?_
      simp only [fsmGetParent, size] at page ⊢
      omega
    obtain ⟨slot, small, holds⟩ := room
    have := less slot small
    rw [same] at this
    omega
  · have middle : addr.level = 1 := by simpa [fsmGetParent] using level
    have small : addr.logpageno < slotsPerFSMPage := by
      rcases valid with ⟨wrong, -⟩ | ⟨-, small⟩ | ⟨wrong, -⟩
      · omega
      · exact small
      · omega
    have here : Above addr (n % slotsPerFSMPage) n := by
      refine ⟨low, Nat.mod_lt _ (by omega), Or.inl ⟨middle, ?_⟩⟩
      simp only [fsmGetParent, size] at page small ⊢
      omega
    have holds := promised addr _ n valid here room
    grind

section

variable {slots : List (FSMAddress × Nat)} (consistent : rel.Consistent) (pos : 0 < minCat)
    (promised : Promised rel minCat) (broken : Broken rel minCat slots)
include slots consistent pos promised broken

theorem attempt_progress (low : n < slotsPerFSMPage * slotsPerFSMPage) (room : HasRoom rel minCat n) :
    (∃ heapBlk rel', ∀ left, searchLoop minCat left rel = (some heapBlk, rel')) ∨
      ∃ rel' slots', slots'.length < slots.length ∧ rel'.Consistent ∧ Promised rel' minCat ∧
        Broken rel' minCat slots' ∧ HasRoom rel' minCat n ∧
          ∀ left, searchLoop minCat (left + 1) rel = searchLoop minCat left rel' := by
  obtain ⟨rel', attempt⟩ := searchLoop_attempt consistent pos
  cases attempt with
  | found _ _ _ _ ran => exact Or.inl ⟨_, rel', ran⟩
  | nothing same less ran =>
    have inside : n / slotsPerFSMPage < slotsPerFSMPage := Nat.div_lt_of_lt_mul low
    have holds := promised ⟨2, 0⟩ (n / slotsPerFSMPage) n valid_root ⟨low, inside, Or.inr ⟨rfl, rfl⟩⟩ room
    have := less (n / slotsPerFSMPage) inside
    omega
  | @mended addr valid less known small holds sets stops restarts =>
    have upper : (fsmGetParent addr).1.level ≠ 0 := Nat.succ_ne_zero _
    have none : ∀ n, Above (fsmGetParent addr).1 (fsmGetParent addr).2 n → ¬ HasRoom rel minCat n :=
      fun n above => promised.none_below valid less above
    have mended : rel.top addr < minCat := by
      grind [Fork.Consistent.exists_slot]
    have mem : ((fsmGetParent addr).1, (fsmGetParent addr).2) ∈ slots := broken _ _ known upper small holds none
    refine Or.inr ⟨rel', slots.filter (· ≠ ((fsmGetParent addr).1, (fsmGetParent addr).2)), ?_, sets.consistent, ?_, ?_,
      (sets.hasRoom upper low).mpr room, restarts⟩
    · exact List.length_filter_lt_length_iff_exists.mpr ⟨_, mem, by simp⟩
    · intro other slot m there above enough
      have enough := (sets.hasRoom upper above.1).mp enough
      by_cases here : (other, slot) = ((fsmGetParent addr).1, (fsmGetParent addr).2)
      · grind
      · rw [sets.avail there above.2.1 here]
        exact promised other slot m there above enough
    · intro other slot there level inside claims empty
      have here : (other, slot) ≠ ((fsmGetParent addr).1, (fsmGetParent addr).2) := by
        grind [Sets.own]
      rw [sets.avail there inside here] at claims
      refine List.mem_filter.mpr ⟨broken other slot there level inside claims fun m above enough => ?_,
        decide_eq_true here⟩
      exact empty m above ((sets.hasRoom upper above.1).mpr enough)

/-- If all room is promised and no more slots are broken than restarts are left, a search finds a
block wherever there is one. -/
theorem searchLoop_complete (few : slots.length ≤ left)
    (low : n < slotsPerFSMPage * slotsPerFSMPage) (room : HasRoom rel minCat n) :
    (searchLoop minCat left rel).1.isSome := by
  induction left generalizing rel slots with
  | zero =>
    grind [attempt_progress]
  | succ left ih =>
    grind [attempt_progress]

end

end Promises

end BlockchainPG.Storage.Fsm
