/-
  JackOS.Device.IdeTransfer

  What `ide_read` and `ide_write` of device/ide.c move.  The controller of a
  channel has the registers that the driver writes, decodes them when it gets a
  command, and then hands over or takes the sectors that the command names; a
  transfer of another length is undefined.  Who waits for whom is the subject of
  `Device.Ide`; here a call runs on its own, and `busy_wait` finds the disk
  ready or does not.

  A count of 256 sectors is 0 in the eight bits of the register, and 256 again in
  `read_from_sector` and `write_to_sector`.
-/

import JackOS.Base.Bytes
import JackOS.Device.Ide
import JackOS.Fs.State

namespace JackOS
namespace Device

open Base

/-! ## The controller -/

/-- What the log of the controller records. -/
inductive CtlEvent where
  /-- A command: the drive and first sector it names, and the count it was
  given. -/
  | command (op : IdeOp) (drive lba : Nat) (count : UInt8)
  /-- So many bytes went over the data port. -/
  | moved (bytes : Nat)
deriving DecidableEq, Repr

/-- The registers of a channel, its two drives, and whether the `k`-th
    `busy_wait` finds the disk ready; the log is read by no code. -/
structure Controller where
  sectCnt : UInt8
  lbaLow : UInt8
  lbaMiddle : UInt8
  lbaHigh : UInt8
  dev : UInt8
  drives : Nat → Mem
  ready : Nat → Bool
  waits : Nat
  events : List CtlEvent

/-- The sectors that a count stands for. -/
def sectorsOf (count : UInt8) : Nat := if count = 0 then 256 else count.toNat

namespace Controller

/-- The sector number in the registers. -/
def lba (ctl : Controller) : Nat :=
  ctl.lbaLow.toNat + 2 ^ 8 * ctl.lbaMiddle.toNat + 2 ^ 16 * ctl.lbaHigh.toNat
    + 2 ^ 24 * (ctl.dev.toNat % 16)

/-- The drive that the device register selects. -/
def drive (ctl : Controller) : Nat := ctl.dev.toNat / 16 % 2

/-- The device register says that the sector is given by its number. -/
def lbaMode (ctl : Controller) : Bool := ctl.dev.toNat / 64 % 2 == 1

def record (ctl : Controller) (e : CtlEvent) : Controller :=
  { ctl with events := ctl.events ++ [e] }

end Controller

/-! ## The code -/

/-- `BIT_DEV_MBS | BIT_DEV_LBA`, and `BIT_DEV_DEV` for the second drive. -/
def devBits (devNo : Nat) : UInt8 := 0xA0 ||| 0x40 ||| (if devNo = 1 then 0x10 else 0)

/-- `select_disk` -/
def selectDisk (devNo : Nat) (ctl : Controller) : Controller :=
  { ctl with dev := devBits devNo }

/-- `select_sector` -/
def selectSector (devNo lba : Nat) (secCnt : UInt8) (ctl : Controller) : Outcome Controller := do
  require (lba ≤ maxLba)
  .ok
    { ctl with
      sectCnt := secCnt
      lbaLow := UInt8.ofNat lba
      lbaMiddle := UInt8.ofNat (lba / 2 ^ 8)
      lbaHigh := UInt8.ofNat (lba / 2 ^ 16)
      dev := devBits devNo ||| UInt8.ofNat (lba / 2 ^ 24) }

/-- `cmd_out` -/
def cmdOut (op : IdeOp) (ctl : Controller) : Outcome Controller :=
  if ctl.lbaMode then .ok (ctl.record (.command op ctl.drive ctl.lba ctl.sectCnt))
  else .error .undefined

/-- `busy_wait`, and the PANIC when it returns false -/
def waitReady (ctl : Controller) : Outcome Controller := do
  require (ctl.ready ctl.waits = true)
  .ok { ctl with waits := ctl.waits + 1 }

/-- `size_in_byte` -/
def sizeInByte (secCnt : UInt8) : Nat := if secCnt = 0 then 256 * 512 else secCnt.toNat * 512

/-- The data port: the sectors of the command go into the buffer, or the
    buffer's bytes into the sectors. -/
def moveData (op : IdeOp) (buf : Mem) (off bytes : Nat) (ctl : Controller) :
    Outcome (Mem × Controller) :=
  if bytes = 512 * sectorsOf ctl.sectCnt then
    let drive := ctl.drives ctl.drive
    match op with
    | .read => .ok (buf.copy off drive (512 * ctl.lba) bytes, ctl.record (.moved bytes))
    | .write =>
        .ok (buf, { ctl with
          drives := Function.update ctl.drives ctl.drive (drive.copy (512 * ctl.lba) buf off bytes) }.record
            (.moved bytes))
  else .error .undefined

/-- `read_from_sector` or `write_to_sector` -/
def moveSectors (op : IdeOp) (buf : Mem) (off : Nat) (secCnt : UInt8) (ctl : Controller) :
    Outcome (Mem × Controller) :=
  -- insw and outsw move words
  moveData op buf off (2 * (sizeInByte secCnt / 2)) ctl

/-- One round of `while (secs_done < sec_cnt)`. -/
def ideRound (op : IdeOp) (devNo lba off secsDone secs : Nat) (buf : Mem) (ctl : Controller) :
    Outcome (Mem × Controller) := do
  let ctl ← selectSector devNo ((lba + secsDone) % 2 ^ 32) (UInt8.ofNat secs) ctl
  let ctl ← cmdOut op ctl
  let ctl ← waitReady ctl
  moveSectors op buf (off + secsDone * 512) (UInt8.ofNat secs) ctl

/-- `while (secs_done < sec_cnt)`, at most `fuel` rounds. -/
def ideLoop (op : IdeOp) (devNo lba off secCnt : Nat) :
    (fuel secsDone : Nat) → (buf : Mem) → Controller → Outcome (Mem × Controller)
  | fuel, secsDone, buf, ctl =>
      if secsDone < secCnt then
        match fuel with
        | 0 => .error .diverges
        | fuel + 1 => do
            let secs := secsNext secsDone secCnt
            let (buf, ctl) ← ideRound op devNo lba off secsDone secs buf ctl
            ideLoop op devNo lba off secCnt fuel ((secsDone + secs) % 2 ^ 32) buf ctl
      else .ok (buf, ctl)

/-- `ide_read` or `ide_write`, with the caller's buffer from `off` on. -/
def ideCall (op : IdeOp) (devNo lba : Nat) (buf : Mem) (off secCnt : Nat) (ctl : Controller) :
    Outcome (Mem × Controller) := do
  require (lba ≤ maxLba)
  require (0 < secCnt)
  ideLoop op devNo lba off secCnt secCnt 0 buf (selectDisk devNo ctl)

/-- `ide_read` -/
def ideRead (devNo lba : Nat) (buf : Mem) (off secCnt : Nat) (ctl : Controller) :
    Outcome (Mem × Controller) :=
  ideCall .read devNo lba buf off secCnt ctl

/-- `ide_write` -/
def ideWrite (devNo lba : Nat) (buf : Mem) (off secCnt : Nat) (ctl : Controller) :
    Outcome (Mem × Controller) :=
  ideCall .write devNo lba buf off secCnt ctl

/-! ## One command -/

variable {op : IdeOp} {devNo lba off secCnt secs : Nat} {buf : Mem} {ctl ctl' : Controller}

/-- What `n` sectors from `lba` on do to the buffer and the drives. -/
def transferred (op : IdeOp) (devNo lba off n : Nat) (st : Mem × (Nat → Mem)) :
    Mem × (Nat → Mem) :=
  match op with
  | .read => (st.1.copy off (st.2 devNo) (512 * lba) (512 * n), st.2)
  | .write => (st.1, Function.update st.2 devNo ((st.2 devNo).copy (512 * lba) st.1 off (512 * n)))

theorem transferred_zero (st : Mem × (Nat → Mem)) : transferred op devNo lba off 0 st = st := by
  cases op with
  | read =>
      have hcopy : st.1.copy off (st.2 devNo) (512 * lba) 0 = st.1 :=
        funext fun a => Mem.copy_outside (by omega)
      exact Prod.ext hcopy rfl
  | write =>
      have hcopy : (st.2 devNo).copy (512 * lba) st.1 off 0 = st.2 devNo :=
        funext fun a => Mem.copy_outside (by omega)
      refine Prod.ext rfl ?_
      change Function.update st.2 devNo ((st.2 devNo).copy (512 * lba) st.1 off 0) = st.2
      rw [hcopy, Function.update_eq_self]

/-- Sectors in a row are moved together as one after the other. -/
theorem transferred_add (n m : Nat) (st : Mem × (Nat → Mem)) :
    transferred op devNo (lba + n) (off + 512 * n) m (transferred op devNo lba off n st)
      = transferred op devNo lba off (n + m) st := by
  cases op with
  | read =>
      refine Prod.ext ?_ rfl
      change (st.1.copy off (st.2 devNo) (512 * lba) (512 * n)).copy (off + 512 * n) (st.2 devNo)
        (512 * (lba + n)) (512 * m) = st.1.copy off (st.2 devNo) (512 * lba) (512 * (n + m))
      rw [Nat.mul_add, Nat.mul_add, Mem.copy_append]
  | write =>
      refine Prod.ext rfl ?_
      change Function.update (Function.update st.2 devNo _) devNo
        ((Function.update st.2 devNo _ devNo).copy (512 * (lba + n)) st.1 (off + 512 * n) (512 * m))
          = Function.update st.2 devNo _
      rw [Function.update_idem, Function.update_self, Nat.mul_add, Nat.mul_add, Mem.copy_append]

/-- A chunk of the loop fits the eight bits, with 256 as 0. -/
theorem sectorsOf_ofNat (hpos : 0 < secs) (hle : secs ≤ 256) :
    sectorsOf (UInt8.ofNat secs) = secs := by
  unfold sectorsOf
  by_cases h : secs = 256
  · subst h
    rfl
  · have hval : (UInt8.ofNat secs).toNat = secs := by
      rw [UInt8.toNat_ofNat']
      omega
    have hne : UInt8.ofNat secs ≠ 0 := by
      intro heq
      rw [heq] at hval
      exact absurd hval (Nat.ne_of_lt hpos)
    rw [if_neg hne, hval]

theorem sizeInByte_eq (count : UInt8) : 2 * (sizeInByte count / 2) = 512 * sectorsOf count := by
  unfold sizeInByte sectorsOf
  split <;> omega

/-- `select_sector` tells the controller the drive, the sector and the count. -/
theorem selectSector_spec (ctl : Controller) (count : UInt8) (hdev : devNo < 2) (hlba : lba ≤ maxLba) :
    ∃ ctl', selectSector devNo lba count ctl = .ok ctl' ∧ ctl'.drive = devNo ∧ ctl'.lba = lba
      ∧ ctl'.lbaMode = true ∧ ctl'.sectCnt = count ∧ ctl'.drives = ctl.drives
      ∧ ctl'.ready = ctl.ready ∧ ctl'.waits = ctl.waits ∧ ctl'.events = ctl.events := by
  have hlt : lba < 163840 := Nat.lt_of_le_of_lt hlba (by decide)
  have hdev' : devBits devNo ||| UInt8.ofNat (lba / 2 ^ 24) = devBits devNo := by
    rw [Nat.div_eq_of_lt (by omega)]
    exact UInt8.or_zero
  have hbits : (devBits devNo).toNat = 224 + 16 * devNo := by
    rcases (by omega : devNo = 0 ∨ devNo = 1) with rfl | rfl <;> rfl
  have hrun : selectSector devNo lba count ctl = .ok
      { ctl with
        sectCnt := count
        lbaLow := UInt8.ofNat lba
        lbaMiddle := UInt8.ofNat (lba / 2 ^ 8)
        lbaHigh := UInt8.ofNat (lba / 2 ^ 16)
        dev := devBits devNo ||| UInt8.ofNat (lba / 2 ^ 24) } := by
    rw [selectSector, require_pos hlba]
    rfl
  refine ⟨_, hrun, ?_, ?_, ?_, rfl, rfl, rfl, rfl, rfl⟩
  · simp only [Controller.drive, hdev', hbits]
    omega
  · simp only [Controller.lba, hdev', hbits, UInt8.toNat_ofNat']
    omega
  · simp only [Controller.lbaMode, hdev', hbits, beq_iff_eq]
    omega

/-- The events of a chunk of `c.2` sectors from `c.1` on. -/
def chunkEvents (op : IdeOp) (devNo : Nat) (c : Nat × Nat) : List CtlEvent :=
  [.command op devNo c.1 (UInt8.ofNat c.2), .moved (512 * c.2)]

/-- One round moves its chunk. -/
theorem ideRound_spec (op : IdeOp) (off : Nat) (buf : Mem) {secsDone : Nat} (hdev : devNo < 2) (hlba : lba + secsDone ≤ maxLba)
    (hpos : 0 < secs) (hle : secs ≤ 256) (hready : ∀ k, ctl.ready k = true) :
    ∃ buf' ctl', ideRound op devNo lba off secsDone secs buf ctl = .ok (buf', ctl')
      ∧ (buf', ctl'.drives)
        = transferred op devNo (lba + secsDone) (off + 512 * secsDone) secs (buf, ctl.drives)
      ∧ ctl'.events = ctl.events ++ chunkEvents op devNo (lba + secsDone, secs)
      ∧ ctl'.ready = ctl.ready := by
  have hlt : maxLba < 2 ^ 32 := by decide
  obtain ⟨c₁, hsel, hdrive, hno, hmode, hcnt, hdrives, hrdy, -, hev⟩ :=
    selectSector_spec ctl (UInt8.ofNat secs) hdev hlba
  have hcount := sectorsOf_ofNat hpos hle
  have hwait : waitReady (c₁.record (.command op devNo (lba + secsDone) (UInt8.ofNat secs)))
      = .ok { c₁.record (.command op devNo (lba + secsDone) (UInt8.ofNat secs)) with
          waits := c₁.waits + 1 } := by
    rw [waitReady, require_pos]
    · rfl
    · rw [Controller.record, hrdy]
      exact hready _
  have hround : ideRound op devNo lba off secsDone secs buf ctl
      = moveSectors op buf (off + secsDone * 512) (UInt8.ofNat secs)
          { c₁.record (.command op devNo (lba + secsDone) (UInt8.ofNat secs)) with
            waits := c₁.waits + 1 } := by
    rw [ideRound, Nat.mod_eq_of_lt (by omega), hsel]
    simp only [Outcome.ok_bind, cmdOut, hmode, if_true, hdrive, hno, hcnt, hwait]
  rw [hround, moveSectors, sizeInByte_eq, hcount, moveData, if_pos (by
    change 512 * secs = 512 * sectorsOf c₁.sectCnt
    rw [hcnt, hcount]), Nat.mul_comm secsDone]
  have hevents : c₁.events ++ [.command op devNo (lba + secsDone) (UInt8.ofNat secs)]
      ++ [.moved (512 * secs)] = ctl.events ++ chunkEvents op devNo (lba + secsDone, secs) := by
    rw [hev, List.append_assoc]
    rfl
  cases op with
  | read =>
      refine ⟨_, _, rfl, ?_, hevents, hrdy⟩
      change (buf.copy _ (c₁.drives c₁.drive) (512 * c₁.lba) _, c₁.drives) = _
      rw [hdrive, hno, hdrives]
      rfl
  | write =>
      refine ⟨_, _, rfl, ?_, hevents, hrdy⟩
      change (buf, Function.update c₁.drives c₁.drive
        ((c₁.drives c₁.drive).copy (512 * c₁.lba) buf _ _)) = _
      rw [hdrive, hno, hdrives]
      rfl

/-! ## The loop -/

/-- The chunks follow one another from `lba` to `stop`, each of 1 to 256
    sectors, and the count a chunk is given stands for as many. -/
def Covers (stop : Nat) : (lba : Nat) → List (Nat × Nat) → Prop
  | lba, [] => lba = stop
  | lba, c :: chunks => c.1 = lba ∧ 1 ≤ c.2 ∧ c.2 ≤ 256 ∧ sectorsOf (UInt8.ofNat c.2) = c.2
      ∧ Covers stop (lba + c.2) chunks

theorem secsNext_bounds {secsDone : Nat} (hlt : secsDone < secCnt) (hcnt : secCnt ≤ maxLba + 1) :
    0 < secsNext secsDone secCnt ∧ secsNext secsDone secCnt ≤ 256
      ∧ secsDone + secsNext secsDone secCnt ≤ secCnt := by
  have hmax : maxLba + 1 = 163840 := by decide
  have hmod : (secsDone + 256) % 2 ^ 32 = secsDone + 256 := Nat.mod_eq_of_lt (by omega)
  unfold secsNext
  rw [hmod]
  split <;> omega

/-- The loop moves what is left, and each round is one command. -/
theorem ideLoop_spec (op : IdeOp) (off : Nat) (buf : Mem) (ctl : Controller)
    (fuel secsDone : Nat) (hdev : devNo < 2)
    (hlba : lba + secCnt ≤ maxLba + 1)
    (hdone : secsDone ≤ secCnt) (hfuel : secCnt - secsDone ≤ fuel)
    (hready : ∀ k, ctl.ready k = true) :
    ∃ buf' ctl' chunks, ideLoop op devNo lba off secCnt fuel secsDone buf ctl = .ok (buf', ctl')
      ∧ Covers (lba + secCnt) (lba + secsDone) chunks
      ∧ (buf', ctl'.drives) = transferred op devNo (lba + secsDone) (off + 512 * secsDone)
          (secCnt - secsDone) (buf, ctl.drives)
      ∧ ctl'.events = ctl.events ++ chunks.flatMap (chunkEvents op devNo)
      ∧ ctl'.ready = ctl.ready := by
  have hmax : maxLba + 1 = 163840 := by decide
  induction fuel generalizing secsDone buf ctl with
  | zero =>
      have heq : secsDone = secCnt := by omega
      subst heq
      refine ⟨buf, ctl, [], ?_, rfl, ?_, (List.append_nil _).symm, rfl⟩
      · unfold ideLoop
        exact if_neg (Nat.lt_irrefl _)
      · rw [Nat.sub_self, transferred_zero]
  | succ fuel ih =>
      by_cases hlt : secsDone < secCnt
      · obtain ⟨hpos, hle, hsum⟩ := secsNext_bounds hlt (by omega)
        obtain ⟨b₁, c₁, hround, hmoved, hev, hrdy⟩ := ideRound_spec op off buf hdev (by omega : lba + secsDone ≤ maxLba) hpos hle hready
        obtain ⟨buf', ctl', chunks, hloop, hcovers, hmoved', hev', hrdy'⟩ :=
          ih b₁ c₁ (secsDone + secsNext secsDone secCnt) hsum
            (by omega) (by rw [hrdy]; exact hready)
        refine ⟨buf', ctl', (lba + secsDone, secsNext secsDone secCnt) :: chunks, ?_,
          ⟨rfl, hpos, hle, sectorsOf_ofNat hpos hle, ?_⟩, ?_, ?_, hrdy'.trans hrdy⟩
        · have hmod : (secsDone + secsNext secsDone secCnt) % 2 ^ 32
              = secsDone + secsNext secsDone secCnt := Nat.mod_eq_of_lt (by omega)
          rw [ideLoop, if_pos hlt]
          simp only [hround, Outcome.ok_bind, hmod]
          exact hloop
        · rw [Nat.add_assoc]
          exact hcovers
        · rw [hmoved', hmoved, ← Nat.add_assoc, Nat.mul_add, ← Nat.add_assoc, transferred_add]
          have hrest : secsNext secsDone secCnt + (secCnt - (secsDone + secsNext secsDone secCnt))
              = secCnt - secsDone := by omega
          rw [hrest]
        · rw [hev', hev, List.flatMap_cons, List.append_assoc]
      · have heq : secsDone = secCnt := by omega
        subst heq
        refine ⟨buf, ctl, [], ?_, rfl, ?_, (List.append_nil _).symm, rfl⟩
        · unfold ideLoop
          exact if_neg (Nat.lt_irrefl _)
        · rw [Nat.sub_self, transferred_zero]

/-! ## One sector at a time -/

/-- A whole call. -/
theorem ideCall_spec (op : IdeOp) (off : Nat) (buf : Mem) (hdev : devNo < 2) (hpos : 1 ≤ secCnt) (hlba : lba + secCnt - 1 ≤ maxLba)
    (hready : ∀ k, ctl.ready k = true) :
    ∃ buf' ctl' chunks, ideCall op devNo lba buf off secCnt ctl = .ok (buf', ctl')
      ∧ Covers (lba + secCnt) lba chunks
      ∧ (buf', ctl'.drives) = transferred op devNo lba off secCnt (buf, ctl.drives)
      ∧ ctl'.events = ctl.events ++ chunks.flatMap (chunkEvents op devNo)
      ∧ ctl'.ready = ctl.ready := by
  obtain ⟨buf', ctl', chunks, hloop, hcovers, hmoved, hev, hrdy⟩ :=
    ideLoop_spec op off buf (selectDisk devNo ctl) secCnt 0 hdev (by omega : lba + secCnt ≤ maxLba + 1) (Nat.zero_le _)
      (Nat.sub_le _ _) hready
  refine ⟨buf', ctl', chunks, ?_, hcovers, hmoved, hev, hrdy⟩
  have hpos' : 0 < secCnt := hpos
  have hlba' : lba ≤ maxLba := by omega
  rw [ideCall, require_pos hlba', require_pos hpos']
  exact hloop

/-- One-sector calls in order, for sectors `k` to `k + left - 1` of the
    transfer. -/
def oneByOne (op : IdeOp) (devNo lba off : Nat) :
    (left k : Nat) → (buf : Mem) → Controller → Outcome (Mem × Controller)
  | 0, _, buf, ctl => .ok (buf, ctl)
  | left + 1, k, buf, ctl => do
      let (buf, ctl) ← ideCall op devNo (lba + k) buf (off + 512 * k) 1 ctl
      oneByOne op devNo lba off left (k + 1) buf ctl

theorem oneByOne_spec (op : IdeOp) (off : Nat) (buf : Mem) (left k : Nat) (hdev : devNo < 2) (hlba : lba + k + left ≤ maxLba + 1)
    (hready : ∀ k, ctl.ready k = true) :
    ∃ buf' ctl', oneByOne op devNo lba off left k buf ctl = .ok (buf', ctl')
      ∧ (buf', ctl'.drives)
        = transferred op devNo (lba + k) (off + 512 * k) left (buf, ctl.drives) := by
  induction left generalizing k buf ctl with
  | zero => exact ⟨buf, ctl, rfl, (transferred_zero _).symm⟩
  | succ left ih =>
      obtain ⟨b₁, c₁, -, hcall, -, hmoved, -, hrdy⟩ := ideCall_spec op
        (off + 512 * k) buf hdev (Nat.le_refl 1) (by omega : lba + k + 1 - 1 ≤ maxLba) hready
      obtain ⟨buf', ctl', hrest, hmoved'⟩ := ih b₁ (k + 1) (by omega)
        (by rw [hrdy]; exact hready)
      refine ⟨buf', ctl', ?_, ?_⟩
      · rw [oneByOne, hcall]
        exact hrest
      · rw [hmoved', hmoved, ← Nat.add_assoc, Nat.mul_add, ← Nat.add_assoc, transferred_add,
          Nat.add_comm 1]

/-! ## The result -/

/-- Afterwards the sectors and the buffer agree. -/
theorem transferred_agrees (op : IdeOp) (devNo lba off : Nat) {n i k : Nat} (st : Mem × (Nat → Mem))
    (hi : i < n) (hk : k < 512) :
    (transferred op devNo lba off n st).1 (off + (512 * i + k))
      = (transferred op devNo lba off n st).2 devNo (512 * (lba + i) + k) := by
  cases op with
  | read =>
      refine (Mem.copy_inside (by omega) (by omega)).trans ?_
      exact congrArg (st.2 devNo) (by omega)
  | write =>
      change st.1 _ = Function.update st.2 devNo _ devNo _
      rw [Function.update_self, Mem.copy_inside (by omega) (by omega)]
      exact congrArg st.1 (by omega)

/-- A transfer of many sectors is as many transfers of one. -/
theorem ideCall_moves (op : IdeOp) (off : Nat) (buf : Mem) (hdev : devNo < 2) (hpos : 1 ≤ secCnt)
    (hlba : lba + secCnt - 1 ≤ maxLba) (hready : ∀ k, ctl.ready k = true) :
    ∃ buf' ctl' chunks, ideCall op devNo lba buf off secCnt ctl = .ok (buf', ctl')
      ∧ Covers (lba + secCnt) lba chunks
      ∧ ctl'.events = ctl.events ++ chunks.flatMap (chunkEvents op devNo)
      ∧ (buf', ctl'.drives) = transferred op devNo lba off secCnt (buf, ctl.drives)
      ∧ (∀ i k, i < secCnt → k < 512 →
          buf' (off + (512 * i + k)) = ctl'.drives devNo (512 * (lba + i) + k))
      ∧ ∃ ctl₁, oneByOne op devNo lba off secCnt 0 buf ctl = .ok (buf', ctl₁)
          ∧ ctl₁.drives = ctl'.drives := by
  obtain ⟨buf', ctl', chunks, hcall, hcovers, hmoved, hev, -⟩ :=
    ideCall_spec op off buf hdev hpos hlba hready
  obtain ⟨b₁, c₁, hone, hmoved₁⟩ := oneByOne_spec op off buf secCnt 0 hdev
    (by omega : lba + 0 + secCnt ≤ maxLba + 1) hready
  rw [Nat.add_zero, Nat.mul_zero, Nat.add_zero, ← hmoved, Prod.mk.injEq] at hmoved₁
  obtain ⟨rfl, hdrives⟩ := hmoved₁
  refine ⟨b₁, ctl', chunks, hcall, hcovers, hev, hmoved, fun i k hi hk => ?_, c₁, hone, hdrives⟩
  have hagree := transferred_agrees op devNo lba off (buf, ctl.drives) hi hk
  rw [← hmoved] at hagree
  exact hagree

/-- A channel whose disks are always ready. -/
def idleController : Controller where
  sectCnt := 0
  lbaLow := 0
  lbaMiddle := 0
  lbaHigh := 0
  dev := 0
  drives _ := Mem.zero
  ready _ := true
  waits := 0
  events := []

/-- 257 sectors are two commands. -/
theorem ideCall_moves_two :
    ∃ buf' ctl' chunks, ideCall .read 1 5 Mem.zero 0 257 idleController = .ok (buf', ctl')
      ∧ Covers (5 + 257) 5 chunks
      ∧ ctl'.events = idleController.events ++ chunks.flatMap (chunkEvents .read 1) := by
  obtain ⟨buf', ctl', chunks, hcall, hcovers, hev, -⟩ :=
    ideCall_moves .read 0 Mem.zero (by decide : 1 < 2) (by decide : 1 ≤ 257)
      (by decide : 5 + 257 - 1 ≤ maxLba) (fun _ => rfl : ∀ k, idleController.ready k = true)
  exact ⟨buf', ctl', chunks, hcall, hcovers, hev⟩

/-- The file system's `ide_read` is the driver's, where its sectors are on the
    disk. -/
theorem ideRead_fs (s : Fs.FsState) (off : Nat) (buf : Mem) (hdev : devNo < 2) (hpos : 1 ≤ secCnt)
    (hlba : lba + secCnt - 1 ≤ maxLba) (hready : ∀ k, ctl.ready k = true)
    (hdisk : ctl.drives devNo = s.disk) :
    ∃ buf' ctl', ideRead devNo lba buf off secCnt ctl = .ok (buf', ctl')
      ∧ Fs.ideRead s lba buf off secCnt = .ok buf' ∧ ctl'.drives = ctl.drives := by
  obtain ⟨buf', ctl', -, hcall, -, hmoved, -⟩ := ideCall_spec .read off buf hdev hpos hlba hready
  rw [transferred, Prod.mk.injEq] at hmoved
  dsimp only at hmoved
  rw [hdisk] at hmoved
  obtain ⟨rfl, hdrives⟩ := hmoved
  refine ⟨_, ctl', hcall, ?_, hdrives⟩
  have hlba' : lba ≤ Fs.maxLba := by
    change lba ≤ maxLba
    omega
  rw [Fs.ideRead, Fs.kassert_pos hlba', Fs.kassert_pos (c := secCnt > 0) hpos, Nat.mul_comm lba,
    Nat.mul_comm secCnt]
  rfl

theorem ideWrite_fs (s : Fs.FsState) (off : Nat) (buf : Mem) (hdev : devNo < 2) (hpos : 1 ≤ secCnt)
    (hlba : lba + secCnt - 1 ≤ maxLba) (hready : ∀ k, ctl.ready k = true)
    (hdisk : ctl.drives devNo = s.disk) :
    ∃ ctl' s', ideWrite devNo lba buf off secCnt ctl = .ok (buf, ctl')
      ∧ Fs.ideWrite s lba buf off secCnt = .ok s' ∧ ctl'.drives devNo = s'.disk := by
  obtain ⟨buf', ctl', -, hcall, -, hmoved, -⟩ := ideCall_spec .write off buf hdev hpos hlba hready
  rw [transferred, Prod.mk.injEq] at hmoved
  dsimp only at hmoved
  rw [hdisk] at hmoved
  obtain ⟨rfl, hdrives⟩ := hmoved
  refine ⟨ctl', s.setDisk (s.disk.copy (lba * 512) buf' off (secCnt * 512)), hcall, ?_, ?_⟩
  · have hlba' : lba ≤ Fs.maxLba := by
      change lba ≤ maxLba
      omega
    rw [Fs.ideWrite, Fs.kassert_pos hlba', Fs.kassert_pos (c := secCnt > 0) hpos]
    rfl
  · rw [hdrives, Function.update_self, Nat.mul_comm lba, Nat.mul_comm secCnt]
    rfl

end Device
end JackOS
