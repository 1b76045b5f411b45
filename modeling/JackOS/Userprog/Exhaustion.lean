/-
  JackOS.Userprog.Exhaustion

  What a request for an inode, a block or pages does when there is none left.
  `bitmap_scan` asserts that the map has a clear bit before it would return -1,
  so in a kernel with ASSERT no request reports that its map is full, or that
  the frames ran out under it.  The only request that comes back without a page
  is one whose address map has clear bits but no run of them: it fails before
  anything was taken.
-/

import JackOS.Fs.Descriptors
import JackOS.Lib.BitmapFit
import JackOS.Userprog.ForkCopy
import JackOS.Userprog.UserPages

namespace JackOS
namespace Userprog

open Base Base.Mem Kernel

/-! ## The mutexes of the pools -/

/-- `mutex_t` of a pool; the holder is the address of a PCB. -/
structure PoolMutex where
  holder : Option Nat
  holderRepeatNr : Nat
  /-- `semaphore.value` -/
  value : Nat

namespace PoolMutex

/-- `mutex_acquire` by `t`; where another thread holds the mutex the call waits. -/
def acquire (mutex : PoolMutex) (t : Nat) : Outcome PoolMutex :=
  if mutex.holder ≠ some t then
    if mutex.value = 0 then .error .diverges
    else do
      require (mutex.value - 1 = 0)
      require (mutex.holderRepeatNr = 0)
      .ok ⟨some t, 1, mutex.value - 1⟩
  else .ok { mutex with holderRepeatNr := (mutex.holderRepeatNr + 1) % 2 ^ 32 }

/-- `mutex_release` by `t` -/
def release (mutex : PoolMutex) (t : Nat) : Outcome PoolMutex := do
  require (mutex.holder = some t)
  if 1 < mutex.holderRepeatNr then
    .ok { mutex with holderRepeatNr := mutex.holderRepeatNr - 1 }
  else do
    require (mutex.holderRepeatNr = 1)
    require (mutex.value = 0)
    .ok ⟨none, 0, mutex.value + 1⟩

/-- The thread `t` gets the mutex without waiting: nobody has it, or `t` itself. -/
def Available (mutex : PoolMutex) (t : Nat) : Prop :=
  mutex = ⟨none, 0, 1⟩
    ∨ mutex.holder = some t ∧ 0 < mutex.holderRepeatNr ∧ mutex.holderRepeatNr + 1 < 2 ^ 32

/-- What is acquired is released. -/
theorem Available.release {mutex : PoolMutex} {t : Nat} (h : mutex.Available t) :
    ∃ held, mutex.acquire t = .ok held ∧ held.release t = .ok mutex := by
  rcases h with rfl | ⟨hholder, hpos, hfits⟩
  · exact ⟨⟨some t, 1, 0⟩, rfl, by simp [PoolMutex.release, require]⟩
  · refine ⟨{ mutex with holderRepeatNr := mutex.holderRepeatNr + 1 }, ?_, ?_⟩
    · rw [acquire, if_neg (by simpa using hholder), Nat.mod_eq_of_lt hfits]
    · rw [PoolMutex.release, require_pos hholder, Outcome.ok_bind,
        if_pos (show 1 < mutex.holderRepeatNr + 1 by omega)]
      rfl

end PoolMutex

/-! ## Requests -/

/-- The bitmap that `vaddr_get` scans. -/
def vaddrMapOf (m : Machine) (t : Nat) : PoolFlags → Bitmap
  | .kernel => m.kernelVaddr.vaddrBitmap
  | .user => userVaddrBitmap m t

/-- The state the requests work on. -/
structure AllocState where
  fs : Fs.FsState
  machine : Machine
  mutex : PoolFlags → PoolMutex
  /-- `running_thread()` -/
  running : Nat

namespace AllocState

def setMachine (s : AllocState) (m : Machine) : AllocState := { s with machine := m }

def setFs (s : AllocState) (fs : Fs.FsState) : AllocState := { s with fs := fs }

def setMutex (s : AllocState) (pf : PoolFlags) (mutex : PoolMutex) : AllocState :=
  { s with mutex := Function.update s.mutex pf mutex }

variable (s : AllocState) (m : Machine) (pf : PoolFlags) (mutex mutex' : PoolMutex)

@[simp] theorem setMachine_mutex : (s.setMachine m).mutex = s.mutex := rfl
@[simp] theorem setMachine_running : (s.setMachine m).running = s.running := rfl
@[simp] theorem setMachine_self : s.setMachine s.machine = s := rfl
@[simp] theorem setMutex_machine : (s.setMutex pf mutex).machine = s.machine := rfl
@[simp] theorem setMutex_running : (s.setMutex pf mutex).running = s.running := rfl
@[simp] theorem setMutex_mutex :
    (s.setMutex pf mutex).mutex = Function.update s.mutex pf mutex := rfl

@[simp] theorem setMutex_setMutex :
    (s.setMutex pf mutex).setMutex pf mutex' = s.setMutex pf mutex' := by
  simp [setMutex]

@[simp] theorem setMutex_self : s.setMutex pf (s.mutex pf) = s := by
  simp [setMutex]

/-- `mutex_acquire(&mem_pool->mutex)` -/
def acquire (s : AllocState) (pf : PoolFlags) : Outcome AllocState := do
  let held ← (s.mutex pf).acquire s.running
  .ok (s.setMutex pf held)

/-- `mutex_release(&mem_pool->mutex)` -/
def release (s : AllocState) (pf : PoolFlags) : Outcome AllocState := do
  let free ← (s.mutex pf).release s.running
  .ok (s.setMutex pf free)

/-- `malloc_page` -/
def mallocPage (s : AllocState) (pf : PoolFlags) (pgCnt : Nat) :
    Outcome (Option Nat × AllocState) := do
  let (vaddr, m) ← Userprog.mallocPage s.machine s.running pf pgCnt
  .ok (vaddr, s.setMachine m)

/-- `get_kernel_pages` -/
def getKernelPages (s : AllocState) (pgCnt : Nat) : Outcome (Option Nat × AllocState) := do
  let s ← s.acquire .kernel
  let (vaddr, m) ← s.machine.getKernelPages pgCnt
  let s ← (s.setMachine m).release .kernel
  .ok (vaddr, s)

/-- `get_a_page`: the exit without a frame does not release the mutex. -/
def getAPage (s : AllocState) (pf : PoolFlags) (vaddr : Nat) :
    Outcome (Option Nat × AllocState) := do
  let s ← s.acquire pf
  let (page, m) ← Userprog.getAPage s.machine s.running pf vaddr
  match page with
  | none => .ok (none, s.setMachine m)
  | some page => do
      let s ← (s.setMachine m).release pf
      .ok (some page, s)

def vaddrMap (s : AllocState) : PoolFlags → Bitmap := vaddrMapOf s.machine s.running

/-- The bitmap that `palloc` scans. -/
def poolMap (s : AllocState) (pf : PoolFlags) : Bitmap := (s.machine.pool pf).poolBitmap

end AllocState

/-- The address map has clear bits, but no run of `pgCnt` that the scan would
    see. -/
structure NoRoom (btmp : Bitmap) (pgCnt : Nat) : Prop where
  pages : 0 < pgCnt ∧ pgCnt < 3840
  clear : ¬ btmp.Full
  noRun : NoRun btmp.bits (scanLimit btmp pgCnt) pgCnt

inductive Request where
  | inodeBitmapAlloc
  | blockBitmapAlloc
  | mallocPage (pf : PoolFlags) (pgCnt : Nat)
  | getKernelPages (pgCnt : Nat)
  | getAPage (pf : PoolFlags) (vaddr : Nat)

namespace Request

/-- The call; `none` stands for -1 and NULL. -/
def run (s : AllocState) : Request → Outcome (Option Nat × AllocState)
  | .inodeBitmapAlloc => do
      let (bitIdx, fs) ← Fs.inodeBitmapAlloc s.fs
      .ok (bitIdx, s.setFs fs)
  | .blockBitmapAlloc => do
      let (lba, fs) ← Fs.blockBitmapAlloc s.fs
      .ok (lba, s.setFs fs)
  | .mallocPage pf pgCnt => s.mallocPage pf pgCnt
  | .getKernelPages pgCnt => s.getKernelPages pgCnt
  | .getAPage pf vaddr => s.getAPage pf vaddr

/-- There is nothing left for the request: a map it scans is full, or the frames
    do not last for its pages.  Page tables, which come from the kernel's pool
    for user pages too, are not counted among these. -/
def Exhausted (s : AllocState) : Request → Prop
  | .inodeBitmapAlloc => s.fs.part.inodeBitmap.Full
  | .blockBitmapAlloc => s.fs.part.blockBitmap.Full
  | .mallocPage pf pgCnt =>
      (s.vaddrMap pf).Full ∨ (s.poolMap pf).Full ∨ (s.poolMap pf).clearBits.card < pgCnt
  | .getKernelPages pgCnt =>
      (s.vaddrMap .kernel).Full ∨ (s.poolMap .kernel).Full
        ∨ (s.poolMap .kernel).clearBits.card < pgCnt
  | .getAPage pf _ => (s.poolMap pf).Full

/-- The request fails over its addresses, before any frame is asked for. -/
def Fragmented (s : AllocState) : Request → Prop
  | .mallocPage pf pgCnt => NoRoom (s.vaddrMap pf) pgCnt
  | .getKernelPages pgCnt => NoRoom (s.vaddrMap .kernel) pgCnt
  | _ => False

end Request

/-- The bitmaps, page tables and mutexes are the same. -/
structure SameBooks (s s' : AllocState) : Prop where
  inodeBitmap : s'.fs.part.inodeBitmap = s.fs.part.inodeBitmap
  blockBitmap : s'.fs.part.blockBitmap = s.fs.part.blockBitmap
  pool : s'.machine.pool = s.machine.pool
  kernelVaddr : s'.machine.kernelVaddr = s.machine.kernelVaddr
  userVaddr : userVaddrBitmap s'.machine = userVaddrBitmap s.machine
  kernelPte : s'.machine.kernelPte = s.machine.kernelPte
  userPte : s'.machine.userFrame = s.machine.userFrame
  mutex : s'.mutex = s.mutex

theorem SameBooks.refl (s : AllocState) : SameBooks s s := ⟨rfl, rfl, rfl, rfl, rfl, rfl, rfl, rfl⟩

/-- The call returns NULL or -1 and leaves the books as they were. -/
def ReportsExhaustion (s : AllocState) (req : Request) : Prop :=
  ∃ s', req.run s = .ok (none, s') ∧ SameBooks s s'

/-! ## The pools get emptier -/

/-- The number of free frames. -/
def freeCnt (m : Machine) (pf : PoolFlags) : Nat := (m.pool pf).poolBitmap.clearBits.card

variable {m m' m'' : Machine} {t cnt vaddr : Nat} {pf : PoolFlags}

theorem freeCnt_congr (h : m'.pool = m.pool) (pf : PoolFlags) : freeCnt m' pf = freeCnt m pf := by
  rw [freeCnt, h, freeCnt]

theorem pool_setFrame (m : Machine) (f : Nat) (c : Mem) : (m.setFrame f c).pool = m.pool := by
  funext pf
  cases pf <;> rfl

theorem pool_setKernelPte (m : Machine) (p e : Nat) : (m.setKernelPte p e).pool = m.pool := by
  funext pf
  cases pf <;> rfl

theorem palloc_full (hfull : (m.pool pf).poolBitmap.Full) :
    m.palloc pf = .error .assertFailed := by
  rw [Machine.palloc, bitmapScan_full hfull, Outcome.error_bind]

/-- While a frame is free `palloc` returns. -/
theorem palloc_ok (h : 0 < freeCnt m pf) :
    ∃ r m', m.palloc pf = .ok (r, m') := by
  have hclear : ¬ (m.pool pf).poolBitmap.Full := by
    rw [Bitmap.full_iff_card]
    exact Nat.ne_of_gt h
  obtain ⟨k, hscan, -⟩ := bitmapScan_not_full hclear
  rw [Machine.palloc, hscan]
  exact ⟨_, _, rfl⟩

/-- `palloc` returns a frame, and one bit fewer is clear. -/
theorem palloc_card {r : Option Nat} (h : m.palloc pf = .ok (r, m')) :
    (∃ a, r = some a) ∧ (∀ pf', pf' ≠ pf → m'.pool pf' = m.pool pf')
      ∧ freeCnt m' pf + 1 = freeCnt m pf := by
  obtain ⟨bitIdx, hscan, h⟩ := Outcome.bind_eq_ok.1 h
  obtain ⟨k, rfl, hfirst⟩ := bitmapScan_one_some hscan
  cases h
  have hpool : ∀ pf', pf' ≠ pf →
      ((m.setPoolBitmap pf (bitmapSet (m.pool pf).poolBitmap k true)).pool pf') = m.pool pf' := by
    intro pf' hne
    cases pf <;> cases pf' <;> first | rfl | exact absurd rfl hne
  have hself : ((m.setPoolBitmap pf (bitmapSet (m.pool pf).poolBitmap k true)).pool pf).poolBitmap
      = bitmapSet (m.pool pf).poolBitmap k true := by
    cases pf <;> rfl
  refine ⟨⟨_, rfl⟩, hpool, ?_⟩
  rw [freeCnt, hself, Bitmap.clearBits_bitmapSet]
  exact Finset.card_erase_add_one (Bitmap.mem_clearBits.2 ⟨hfirst.lt, hfirst.clear⟩)

theorem palloc_freeCnt {pf' : PoolFlags} {r : Option Nat} (h : m.palloc pf' = .ok (r, m'))
    (pf : PoolFlags) : freeCnt m' pf ≤ freeCnt m pf := by
  obtain ⟨-, hother, hcard⟩ := palloc_card h
  by_cases hpf : pf = pf'
  · subst hpf
    omega
  · rw [freeCnt, hother pf hpf, freeCnt]

/-- A page table may be taken, but no frame becomes free. -/
theorem pageTableAdd_freeCnt {a : Nat} (h : m.pageTableAdd vaddr a = .ok m') :
    freeCnt m' pf ≤ freeCnt m pf := by
  unfold Machine.pageTableAdd at h
  split at h
  · obtain ⟨_, -, h⟩ := Outcome.bind_eq_ok.1 h
    cases h
    exact (freeCnt_congr (pool_setKernelPte ..) pf).le
  · unfold Machine.addUserPage at h
    dsimp only at h
    split at h
    · obtain ⟨_, -, h⟩ := Outcome.bind_eq_ok.1 h
      cases h
      exact (freeCnt_congr (pool_setFrame ..) pf).le
    · -- a new page table takes a frame of the kernel's pool
      obtain ⟨⟨pt, m₁⟩, hpalloc, h⟩ := Outcome.bind_eq_ok.1 h
      obtain ⟨_, -, h⟩ := Outcome.bind_eq_ok.1 h
      cases h
      apply (palloc_freeCnt hpalloc pf).trans'
      apply Nat.le_of_eq
      apply freeCnt_congr
      simp only [Machine.setWord, pool_setFrame]

theorem setVaddrBit_pool {bitIdx : Nat} (h : setVaddrBit m t bitIdx = .ok m') :
    m'.pool = m.pool := by
  obtain ⟨frame, -, h⟩ := Outcome.bind_eq_ok.1 h
  cases h
  exact pool_setFrame ..

theorem setVaddrRun_pool {bitIdx : Nat} (h : setVaddrRun t cnt bitIdx m = .ok m') :
    m'.pool = m.pool := by
  induction cnt generalizing bitIdx m with
  | zero =>
      cases h
      rfl
  | succ cnt ih =>
      obtain ⟨m₁, hbit, h⟩ := Outcome.bind_eq_ok.1 h
      rw [ih h, setVaddrBit_pool hbit]

/-! ## Frames run out -/

/-- With fewer frames than pages the loop of `malloc_page` does not end. -/
theorem mapPages_short {r : Bool × Machine}
    (hshort : freeCnt m .kernel < cnt) :
    Machine.mapPages cnt vaddr m ≠ .ok r := by
  intro h
  induction cnt generalizing vaddr m with
  | zero => omega
  | succ cnt ih =>
      obtain ⟨⟨page, m₁⟩, hpalloc, h⟩ := Outcome.bind_eq_ok.1 h
      obtain ⟨⟨a, rfl⟩, -, hcard⟩ := palloc_card hpalloc
      obtain ⟨m₂, hadd, h⟩ := Outcome.bind_eq_ok.1 h
      -- each page takes a frame, so there are too few for the rest as well
      have hless : freeCnt m₂ .kernel ≤ freeCnt m₁ .kernel := pageTableAdd_freeCnt hadd
      exact ih (by omega) h

theorem mapUserPages_short {r : Bool × Machine}
    (hshort : freeCnt m .user < cnt) :
    mapUserPages cnt vaddr m ≠ .ok r := by
  intro h
  induction cnt generalizing vaddr m with
  | zero => omega
  | succ cnt ih =>
      obtain ⟨⟨page, m₁⟩, hpalloc, h⟩ := Outcome.bind_eq_ok.1 h
      obtain ⟨⟨a, rfl⟩, -, hcard⟩ := palloc_card hpalloc
      obtain ⟨m₂, hadd, h⟩ := Outcome.bind_eq_ok.1 h
      -- a new page table takes a frame of the kernel, and gives none back here
      have hless : freeCnt m₂ .user ≤ freeCnt m₁ .user := pageTableAdd_freeCnt hadd
      exact ih (by omega) h

/-! ## malloc_page -/

/-- The scan of the addresses ends where one of them is free, and finds nothing
    where there is no run. -/
theorem noRoom_of_scan {btmp : Bitmap} {out : Option Nat} (hcnt : 0 < cnt ∧ cnt < 3840)
    (h : bitmapScan false btmp cnt = .ok out) :
    ¬ btmp.Full ∧ (out = none ↔ NoRoom btmp cnt) := by
  have hfull : ¬ btmp.Full := by
    intro hfull
    rw [bitmapScan_full hfull] at h
    cases h
  obtain ⟨out', hscan, hsome, hnone⟩ := bitmapScan_run false hcnt.1 (Bitmap.not_full.1 hfull)
  rw [h] at hscan
  cases hscan
  refine ⟨hfull, fun hout => ⟨hcnt, hfull, hnone hout⟩, fun hroom => ?_⟩
  cases hr : out with
  | none => rfl
  | some r => exact absurd hroom.noRun (hsome r hr).not_noRun

theorem NoRoom.scan {btmp : Bitmap} (h : NoRoom btmp cnt) :
    bitmapScan false btmp cnt = .ok none := by
  obtain ⟨out, hscan, -, -⟩ := bitmapScan_run false h.pages.1 (Bitmap.not_full.1 h.clear)
  rw [hscan, (noRoom_of_scan h.pages hscan).2.2 h]

/-- Without a run of addresses `malloc_page` returns NULL at once. -/
theorem mallocPage_noRoom (h : NoRoom (vaddrMapOf m t pf) cnt) :
    mallocPage m t pf cnt = .ok (none, m) := by
  cases pf with
  | kernel =>
      have hget : m.vaddrGet cnt = .ok (none, m) := by
        rw [Machine.vaddrGet, show bitmapScan false m.kernelVaddr.vaddrBitmap cnt = .ok none from
          h.scan, Outcome.ok_bind]
      rw [mallocPage, Machine.mallocPage, require_pos h.pages, Outcome.ok_bind, hget,
        Outcome.ok_bind]
  | user =>
      have hget : userVaddrGet m t cnt = .ok (none, m) := by
        rw [userVaddrGet, show bitmapScan false (userVaddrBitmap m t) cnt = .ok none from h.scan,
          Outcome.ok_bind]
      rw [mallocPage, mallocUserPage, require_pos h.pages, Outcome.ok_bind, hget, Outcome.ok_bind]

theorem getKernelPages_noRoom (h : NoRoom m.kernelVaddr.vaddrBitmap cnt) :
    m.getKernelPages cnt = .ok (none, m) := by
  have hmalloc : m.mallocPage cnt = .ok (none, m) :=
    mallocPage_noRoom (show NoRoom (vaddrMapOf m 0 .kernel) cnt from h)
  rw [Machine.getKernelPages, hmalloc, Outcome.ok_bind]

/-- `malloc_page` that returns has found addresses in a map that is not full, and
    frames for all of its pages. -/
theorem mallocPage_ok {r : Option Nat × Machine} (h : mallocPage m t pf cnt = .ok r) :
    NoRoom (vaddrMapOf m t pf) cnt
      ∨ ¬ (vaddrMapOf m t pf).Full ∧ 0 < cnt ∧ cnt ≤ freeCnt m pf := by
  cases pf with
  | kernel =>
      obtain ⟨_, hcnt, h⟩ := Outcome.bind_eq_ok.1 h
      rw [require_eq_ok] at hcnt
      obtain ⟨⟨start, m₁⟩, hget, h⟩ := Outcome.bind_eq_ok.1 h
      obtain ⟨out, hscan, hget⟩ := Outcome.bind_eq_ok.1 hget
      obtain ⟨hfull, hroom⟩ := noRoom_of_scan hcnt hscan
      cases out with
      | none => exact .inl (hroom.1 rfl)
      | some i =>
          cases hget
          obtain ⟨⟨b, m₂⟩, hmap, -⟩ := Outcome.bind_eq_ok.1 h
          refine .inr ⟨hfull, hcnt.1, ?_⟩
          -- addresses were found, so the loop over the pages ran to its end
          by_contra hshort
          refine mapPages_short ?_ hmap
          exact Nat.lt_of_not_le hshort
  | user =>
      obtain ⟨_, hcnt, h⟩ := Outcome.bind_eq_ok.1 h
      rw [require_eq_ok] at hcnt
      obtain ⟨⟨start, m₁⟩, hget, h⟩ := Outcome.bind_eq_ok.1 h
      obtain ⟨out, hscan, hget⟩ := Outcome.bind_eq_ok.1 hget
      obtain ⟨hfull, hroom⟩ := noRoom_of_scan hcnt hscan
      cases out with
      | none => exact .inl (hroom.1 rfl)
      | some i =>
          obtain ⟨m₂, hset, hget⟩ := Outcome.bind_eq_ok.1 hget
          obtain ⟨_, -, hget⟩ := Outcome.bind_eq_ok.1 hget
          cases hget
          obtain ⟨⟨b, m₃⟩, hmap, -⟩ := Outcome.bind_eq_ok.1 h
          refine .inr ⟨hfull, hcnt.1, ?_⟩
          by_contra hshort
          refine mapUserPages_short ?_ hmap
          rw [freeCnt_congr (setVaddrRun_pool hset)]
          exact Nat.lt_of_not_le hshort

/-- A call that returns found neither map full nor the frames too few, unless
    there was no room. -/
theorem mallocPage_exhausted {r : Option Nat × Machine}
    (hexhausted : (vaddrMapOf m t pf).Full ∨ (m.pool pf).poolBitmap.Full
      ∨ freeCnt m pf < cnt)
    (h : mallocPage m t pf cnt = .ok r) : NoRoom (vaddrMapOf m t pf) cnt := by
  rcases mallocPage_ok h with hroom | ⟨hfull, hpos, hframes⟩
  · exact hroom
  · rcases hexhausted with hvaddr | hpool | hshort
    · exact absurd hvaddr hfull
    · rw [Bitmap.full_iff_card] at hpool
      have hempty : freeCnt m pf = 0 := hpool
      omega
    · omega

theorem markVaddr_pool (h : markVaddr m t pf vaddr = .ok m') : m'.pool = m.pool := by
  unfold markVaddr at h
  split at h
  · obtain ⟨_, -, h⟩ := Outcome.bind_eq_ok.1 h
    exact setVaddrBit_pool h
  · split at h
    · obtain ⟨_, -, h⟩ := Outcome.bind_eq_ok.1 h
      cases h
      funext pf'
      cases pf' <;> rfl
    · cases h

/-- `get_a_page` does not return when its pool is empty. -/
theorem getAPage_full {r : Option Nat × Machine} (hfull : (m.pool pf).poolBitmap.Full) :
    getAPage m t pf vaddr ≠ .ok r := by
  intro h
  obtain ⟨m₁, hmark, h⟩ := Outcome.bind_eq_ok.1 h
  obtain ⟨⟨page, m₂⟩, hpalloc, -⟩ := Outcome.bind_eq_ok.1 h
  -- marking the address takes no frame: `palloc` meets the full map
  rw [← markVaddr_pool hmark] at hfull
  rw [palloc_full hfull] at hpalloc
  cases hpalloc

/-! ## Requests when nothing is left -/

theorem inodeBitmapAlloc_full {fs : Fs.FsState} {r : Option Nat × Fs.FsState}
    (hndebug : fs.ndebug = false) (hfull : fs.part.inodeBitmap.Full) :
    Fs.inodeBitmapAlloc fs ≠ .ok r := by
  intro h
  rw [Fs.inodeBitmapAlloc, hndebug, bitmapScan_full hfull] at h
  cases h

theorem blockBitmapAlloc_full {fs : Fs.FsState} {r : Option Nat × Fs.FsState}
    (hndebug : fs.ndebug = false) (hfull : fs.part.blockBitmap.Full) :
    Fs.blockBitmapAlloc fs ≠ .ok r := by
  intro h
  rw [Fs.blockBitmapAlloc, hndebug, bitmapScan_full hfull] at h
  cases h

/-- A request that returns at all when nothing is left found no run of
    addresses. -/
theorem fragmented_of_run {s : AllocState} {req : Request} {r : Option Nat × AllocState}
    (hndebug : s.fs.ndebug = false) (hexhausted : req.Exhausted s) (h : req.run s = .ok r) :
    req.Fragmented s := by
  cases req with
  | inodeBitmapAlloc =>
      obtain ⟨⟨bitIdx, fs⟩, halloc, -⟩ := Outcome.bind_eq_ok.1 h
      exact absurd halloc (inodeBitmapAlloc_full hndebug hexhausted)
  | blockBitmapAlloc =>
      obtain ⟨⟨lba, fs⟩, halloc, -⟩ := Outcome.bind_eq_ok.1 h
      exact absurd halloc (blockBitmapAlloc_full hndebug hexhausted)
  | mallocPage pf pgCnt =>
      obtain ⟨⟨page, m⟩, hmalloc, -⟩ := Outcome.bind_eq_ok.1 h
      exact mallocPage_exhausted hexhausted hmalloc
  | getKernelPages pgCnt =>
      obtain ⟨s₁, hacquire, h⟩ := Outcome.bind_eq_ok.1 h
      obtain ⟨held, -, hacquire⟩ := Outcome.bind_eq_ok.1 hacquire
      cases hacquire
      obtain ⟨⟨page, m⟩, hget, -⟩ := Outcome.bind_eq_ok.1 h
      obtain ⟨⟨page, m⟩, hmalloc, -⟩ := Outcome.bind_eq_ok.1 hget
      have hroom : NoRoom (vaddrMapOf s.machine s.running .kernel) pgCnt :=
        mallocPage_exhausted hexhausted hmalloc
      exact hroom
  | getAPage pf vaddr =>
      obtain ⟨s₁, hacquire, h⟩ := Outcome.bind_eq_ok.1 h
      obtain ⟨held, -, hacquire⟩ := Outcome.bind_eq_ok.1 hacquire
      cases hacquire
      obtain ⟨⟨page, m⟩, hget, -⟩ := Outcome.bind_eq_ok.1 h
      exact absurd hget (getAPage_full hexhausted)

/-- Without a run of addresses the request reports it and changes nothing. -/
theorem run_of_fragmented {s : AllocState} {req : Request}
    (hmutex : ∀ pf, (s.mutex pf).Available s.running) (h : req.Fragmented s) :
    req.run s = .ok (none, s) := by
  cases req with
  | inodeBitmapAlloc => cases h
  | blockBitmapAlloc => cases h
  | mallocPage pf pgCnt =>
      rw [Request.run, AllocState.mallocPage, mallocPage_noRoom h, Outcome.ok_bind]
      rfl
  | getKernelPages pgCnt =>
      obtain ⟨held, hacquire, hrelease⟩ := (hmutex .kernel).release
      have hget : s.machine.getKernelPages pgCnt = .ok (none, s.machine) := getKernelPages_noRoom h
      rw [Request.run, AllocState.getKernelPages, AllocState.acquire, hacquire, Outcome.ok_bind,
        Outcome.ok_bind, AllocState.setMutex_machine, hget, Outcome.ok_bind]
      have hself : (s.setMutex .kernel held).setMachine s.machine = s.setMutex .kernel held := rfl
      simp only [hself, AllocState.release, AllocState.setMutex_mutex, Function.update_self,
        AllocState.setMutex_running, hrelease, Outcome.ok_bind, AllocState.setMutex_setMutex,
        AllocState.setMutex_self]
  | getAPage pf vaddr => cases h

/-- With ASSERT compiled in, a request for which nothing is left reports it
    exactly when its address map has clear bits without a run of them. -/
theorem reportsExhaustion_iff (s : AllocState) (req : Request) (hndebug : s.fs.ndebug = false)
    (hmutex : ∀ pf, (s.mutex pf).Available s.running) (hexhausted : req.Exhausted s) :
    ReportsExhaustion s req ↔ req.Fragmented s := by
  constructor
  · rintro ⟨s', hrun, -⟩
    exact fragmented_of_run hndebug hexhausted hrun
  · intro hfrag
    exact ⟨s, run_of_fragmented hmutex hfrag, SameBooks.refl s⟩

/-- `oneProc` running beside a file system with ASSERT; the frames are those of
    `pool`, and the kernel's addresses those of `vaddrs`. -/
def allocProbe (pool vaddrs : Bitmap) : AllocState where
  fs := { Fs.tinyFs with ndebug := false }
  machine := { oneProc with
    kernelPool := { oneProc.kernelPool with poolBitmap := pool }
    kernelVaddr := { oneProc.kernelVaddr with vaddrBitmap := vaddrs } }
  mutex _ := ⟨none, 0, 1⟩
  running := oneProcPcb

/-- One frame is left, and addresses for single pages only. -/
theorem reportsExhaustion_iff_single :
    ReportsExhaustion (allocProbe ⟨1, fun _ => 0x7F⟩ ⟨1, fun _ => 0xBB⟩) (.getKernelPages 2) := by
  have hpairs : ∀ r, r < 8 → ¬ (bitAt (fun _ => 0xBB) (r + 0) = false
      ∧ bitAt (fun _ => 0xBB) (r + 1) = false) := by decide
  refine (reportsExhaustion_iff _ (.getKernelPages 2) rfl (fun _ => .inl rfl)
    (.inr (.inr (by decide)))).2 ⟨by decide, ?_, fun r hr hrun => ?_⟩
  · intro hfull
    exact absurd (hfull 2 (by decide)) (by decide)
  · have hlimit : r + 2 ≤ 9 := hr
    exact hpairs r (by omega) ⟨hrun 0 (by decide), hrun 1 (by decide)⟩

/-- One frame is left, and two are asked for: `bitmap_scan` stops the kernel. -/
theorem not_reportsExhaustion_two : ¬ ∀ (s : AllocState) (req : Request), s.fs.ndebug = false →
    (∀ pf, (s.mutex pf).Available s.running) → req.Exhausted s → ReportsExhaustion s req := by
  intro hall
  have hexhausted : (Request.getKernelPages 2).Exhausted
      (allocProbe ⟨1, fun _ => 0x7F⟩ ⟨1, fun _ => 0⟩) := .inr (.inr (by decide))
  obtain ⟨s', hrun, -⟩ := hall _ _ rfl (fun _ => .inl rfl) hexhausted
  have hroom := fragmented_of_run rfl hexhausted hrun
  exact hroom.noRun 0 (by decide) (by unfold ClearRun; decide)

end Userprog
end JackOS
