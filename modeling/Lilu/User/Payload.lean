import Lilu.Mach.Walk
import Lilu.User.ImageHeader

/-!
# Injecting a payload

`injectPayload` reads three pages of a process' image to a buffer, looks for the entry point among
the load commands, puts the payload behind them and makes it the entry point, and writes the pages
back. The walk over the commands follows their sizes, and takes as many as `ncmds` says; only
`sizeofcmds` is compared with the size of the buffer.

## Main definitions

* `walkCommand`, `walk`: the loop over the load commands
* `prepare`: what is done in the buffer up to the new entry point
* `writePages`, `injectPayload`: writing the pages back, and all of it
* `commandOffset`, `CommandsInside`: where the commands' sizes lead, and that what is looked at
  there is inside `sizeofcmds`

## Main results

* `within_walk_iff`: where the walk reads
* `staysInside_iff`: when the buffer and the commands are not left
-/

namespace Lilu.UserPatcher

open Lilu.MachInfo (Buffer bytesAt u32 u64)
open Lilu.MachInfo.Reads (read32 read64 run_read32 run_read64 within_read32_Ico within_read64_Ico)
open Probe (Within)

/-! ## The walk -/

/-- What the loop has found: the command it is at, where the entry point is, whether that has the
address of the segment in it, and this address. -/
structure Walked where
  currPtr : ℕ
  entry32 : Option ℕ := none
  entry64 : Option ℕ := none
  vmEp : Bool := true
  vmBase : BitVec 64 := 0
  deriving DecidableEq

/-- The address of a segment that maps the start of the file: the offsets of the segment's fields in
the command, and how they are read. -/
def walkSegment (get : ℕ → Probe ℕ ℕ) (vmaddr fileoff filesize : ℕ) (w : Walked) :
    Probe ℕ Walked := do
  let off ← get (w.currPtr + fileoff)
  if off = 0 then
    let size ← get (w.currPtr + filesize)
    if 0 < size then
      let addr ← get (w.currPtr + vmaddr)
      pure { w with vmBase := BitVec.ofNat 64 addr }
    else pure w
  else pure w

/-- What the loop takes from a command; `magic64` is whether the image has 64 bits. -/
def walkKind (magic64 : Bool) (cmd : ℕ) (w : Walked) : Probe ℕ Walked :=
  if cmd = LC_MAIN then pure { w with entry64 := some (w.currPtr + 0x8), vmEp := false }
  else if cmd = LC_UNIXTHREAD then
    if magic64 then pure { w with entry64 := some (w.currPtr + 0x90) }
    else pure { w with entry32 := some (w.currPtr + 0x38) }
  else if cmd = LC_SEGMENT then walkSegment read32 24 32 36 w
  else if cmd = LC_SEGMENT_64 then walkSegment read64 24 40 48 w
  else pure w

/-- The body of the loop. -/
def walkCommand (magic64 : Bool) (w : Walked) : Probe ℕ Walked := do
  let cmd ← read32 w.currPtr
  let w ← walkKind magic64 cmd w
  let cmdsize ← read32 (w.currPtr + 4)
  pure { w with currPtr := w.currPtr + cmdsize }

def walk (magic64 : Bool) : ℕ → Walked → Probe ℕ Walked
  | 0, w => pure w
  | n + 1, w => do
    let w ← walkCommand magic64 w
    walk magic64 n w

/-! ## The buffer -/

/-- `sizeof(tmpBufferData)` -/
def tmpBufferSize : ℕ := 3 * PAGE_SIZE

/-- What is to be done with the buffer: nothing if the magic is unknown or there is no entry point;
else the offset and the bytes of the new entry point, the offset of the payload, and the entry point
there was. -/
inductive Prepared where
  | unknown
  | refused
  | ready (magic64 : Bool) (entryOff : ℕ) (entry : List UInt8) (newEp : ℕ) (orgEp : BitVec 64)
  deriving DecidableEq

/-- The walk that is taken for a header. -/
def walkHeader (magic ncmds : ℕ) : Probe ℕ Walked :=
  walk (magic = MH_MAGIC_64) ncmds { currPtr := hdrSize magic }

/-- The new entry point, in place of the one that was found. -/
def replaceEntry (baseAddr : VmAddress) (magic newEp : ℕ) (w : Walked) : Probe ℕ Prepared := do
  let vmBase := if w.vmEp then w.vmBase else 0
  let orgEp := baseAddr - vmBase
  let dstEp := BitVec.ofNat 64 newEp + vmBase
  match w.entry64, w.entry32 with
  | some off, _ =>
    let old ← read64 off
    pure (.ready (magic = MH_MAGIC_64) off (bytes dstEp) newEp (orgEp + BitVec.ofNat 64 old))
  | none, some off =>
    let old ← read32 off
    pure (.ready (magic = MH_MAGIC_64) off (bytes (dstEp.setWidth 32)) newEp
      (orgEp + BitVec.ofNat 64 old))
  | none, none => pure .refused

/-- What is done in the buffer up to the new entry point. -/
def prepare (baseAddr : VmAddress) : Probe ℕ Prepared := do
  let magic ← read32 0
  if magic = MH_MAGIC_64 ∨ magic = MH_MAGIC then
    let sizeofcmds ← read32 20
    let newEp := hdrSize magic + sizeofcmds
    if tmpBufferSize < newEp + PAGE_SIZE then pure .refused
    else
      let ncmds ← read32 16
      let w ← walkHeader magic ncmds
      replaceEntry baseAddr magic newEp w
  else pure .unknown

/-- The buffer with other bytes from an offset on. -/
def splice (b : Buffer) (o : ℕ) (bs : List UInt8) : Buffer :=
  fun k => if k < o then b k else (bs[k - o]?).getD (b k)

/-! ## The process -/

variable (K : VmKernel)

/-- The loop that saves the protections of pages and makes them writable; it ends with the first
that is refused. -/
def openPages : List VmAddress → Vm → Bool × List SavedProt × Vm
  | [], s => (true, [], s)
  | off :: offs, s =>
    let e := savePage s.map off
    let (r, s) :=
      if e.val.write = false then vmProtect K off PAGE_SIZE e.val.withWrite s
      else (KERN_SUCCESS, s)
    if r = KERN_SUCCESS then
      let (ok, prots, s) := openPages offs s
      (ok, e :: prots, s)
    else (false, [e], s)

/-- The loop that sets the protections as they were, up to the first that is refused. -/
def closePages : List SavedProt → Vm → Vm
  | [], s => s
  | e :: prots, s =>
    if e.val.write = false then
      let (r, s) := vmProtect K e.off PAGE_SIZE e.val s
      if r = KERN_SUCCESS then closePages prots s else s
    else closePages prots s

/-- What is returned, and what is put to `ep`: the entry point in as many bits as the process
has. -/
structure Injected where
  returned : Bool
  ep : Option (BitVec 64) := none
  deriving DecidableEq

/-- The three pages are written from the buffer, and have their protections back afterwards. What is
returned is whether they were written. -/
def writePages (baseAddr : VmAddress) (tmpBufferData : Buffer) (s : Vm) : Bool × Vm :=
  match openPages K [baseAddr, baseAddr + BitVec.ofNat 64 PAGE_SIZE,
      baseAddr + BitVec.ofNat 64 (2 * PAGE_SIZE)] s with
  | (false, _, s) => (false, s)
  | (true, prots, s) =>
    let (r, s) := orgVmMapWriteUser K baseAddr (bytesAt tmpBufferData 0 tmpBufferSize) s
    if r = KERN_SUCCESS then (true, closePages K prots s) else (false, s)

/-- `behind` are the bytes that lie behind the buffer. -/
def injectPayload (baseAddr : VmAddress) (payload : List UInt8) (behind : Buffer) (s : Vm) :
    Injected × Vm :=
  if PAGE_SIZE < payload.length then ({ returned := false }, s)
  else
    match orgVmMapReadUser K baseAddr tmpBufferSize s with
    | (none, s) => ({ returned := false }, s)
    | (some tmp, s) =>
      let tmpBufferData : Buffer := fun k => (tmp[k]?).getD (behind k)
      match (prepare baseAddr).run tmpBufferData with
      | .unknown => ({ returned := true }, s)
      | .refused => ({ returned := false }, s)
      | .ready magic64 entryOff entry newEp orgEp =>
        let ep := some (if magic64 then orgEp else (orgEp.setWidth 32).setWidth 64)
        let (returned, s) := writePages K baseAddr
          (splice (splice tmpBufferData entryOff entry) newEp payload) s
        ({ returned, ep }, s)

/-! ## Where the walk reads -/

section Reads

variable {b : Buffer} {a e o n : ℕ} {w : Walked} {magic64 : Bool}

/-- Where the sizes of the commands from an offset on lead. -/
def commandOffset (b : Buffer) (o : ℕ) : ℕ → ℕ
  | 0 => o
  | i + 1 => commandOffset b (o + u32 b (o + 4)) i

/-- How much of the command at an offset is looked at: its kind and size, and the offset of a
segment's file, with the size of it if the offset is zero. -/
def lookedAt (b : Buffer) (o : ℕ) : ℕ :=
  if u32 b o = LC_SEGMENT then
    if u32 b (o + 32) = 0 then 40 else 36
  else if u32 b o = LC_SEGMENT_64 then
    if u64 b (o + 40) = 0 then 56 else 48
  else 8

/-- **What is looked at is inside**: as far as `ncmds` counts, the commands' sizes lead to commands
that end inside `sizeofcmds`, as much of them as is looked at. -/
def CommandsInside (b : Buffer) : Prop :=
  ∀ i < u32 b 16, commandOffset b (hdrSize (u32 b 0)) i +
    lookedAt b (commandOffset b (hdrSize (u32 b 0)) i) ≤ hdrSize (u32 b 0) + u32 b 20

theorem run_walkSegment (get : ℕ → Probe ℕ ℕ) (vmaddr fileoff filesize : ℕ) (w : Walked) :
    (walkSegment get vmaddr fileoff filesize w).run b =
      if (get (w.currPtr + fileoff)).run b = 0 ∧ 0 < (get (w.currPtr + filesize)).run b then
        { w with vmBase := BitVec.ofNat 64 ((get (w.currPtr + vmaddr)).run b) }
      else w := by
  simp only [walkSegment, Probe.run_bind, Probe.run_ite, Probe.run_pure, ite_and]

/-- Looking at a segment leaves the command where it is. -/
theorem currPtr_walkSegment (get : ℕ → Probe ℕ ℕ) (vmaddr fileoff filesize : ℕ) (w : Walked) :
    ((walkSegment get vmaddr fileoff filesize w).run b).currPtr = w.currPtr := by
  rw [run_walkSegment]
  split_ifs <;> rfl

theorem currPtr_walkKind (magic64 : Bool) (cmd : ℕ) (w : Walked) :
    ((walkKind magic64 cmd w).run b).currPtr = w.currPtr := by
  unfold walkKind
  split_ifs
  · rfl
  · rfl
  · rfl
  · exact currPtr_walkSegment ..
  · exact currPtr_walkSegment ..
  · rfl

theorem currPtr_walkCommand : ((walkCommand magic64 w).run b).currPtr =
    w.currPtr + u32 b (w.currPtr + 4) := by
  simp only [walkCommand, Probe.run_bind, run_read32, Probe.run_pure, currPtr_walkKind]

/-- How much of a segment is read: its size and address come before or behind the offset. -/
theorem within_walkSegment {get : ℕ → Probe ℕ ℕ} {v : ℕ → ℕ} {k vmaddr fileoff filesize : ℕ}
    (hget : ∀ o, Within (Set.Ico a e) b (get o) ↔ a ≤ o ∧ o + k ≤ e)
    (hrun : ∀ o, (get o).run b = v o) (ha : a ≤ w.currPtr) (haddr : vmaddr ≤ fileoff)
    (hsize : fileoff ≤ filesize) :
    Within (Set.Ico a e) b (walkSegment get vmaddr fileoff filesize w) ↔
      w.currPtr + ((if v (w.currPtr + fileoff) = 0 then filesize else fileoff) + k) ≤ e := by
  simp only [walkSegment, Probe.within_bind, Probe.within_ite, Probe.within_pure, hget, hrun,
    and_true, implies_true]
  split_ifs with hzero
  · constructor
    · intro h
      have hbehind := (h.2 hzero).1
      omega
    · intro h
      exact ⟨by omega, fun _ => ⟨by omega, fun _ => by omega⟩⟩
  · constructor
    · intro h
      omega
    · intro h
      exact ⟨by omega, fun h0 => absurd h0 hzero⟩

theorem within_walkKind (ha : a ≤ w.currPtr) (h8 : w.currPtr + 8 ≤ e) :
    Within (Set.Ico a e) b (walkKind magic64 (u32 b w.currPtr) w) ↔
      w.currPtr + lookedAt b w.currPtr ≤ e := by
  have h32 := within_walkSegment (b := b) (e := e) (w := w) (fun o => within_read32_Ico)
    (fun o => run_read32) ha (show 24 ≤ 32 by decide) (show 32 ≤ 36 by decide)
  have h64 := within_walkSegment (b := b) (e := e) (w := w) (fun o => within_read64_Ico)
    (fun o => run_read64) ha (show 24 ≤ 40 by decide) (show 40 ≤ 48 by decide)
  have hplain (p : Walked) (h : lookedAt b w.currPtr = 8) :
      Within (Set.Ico a e) b (pure p) ↔ w.currPtr + lookedAt b w.currPtr ≤ e := by
    rw [h]
    exact iff_of_true (Probe.within_pure p) h8
  unfold walkKind
  split_ifs with hmain hthread hmagic hseg hseg64
  · exact hplain _ (by rw [lookedAt, hmain]; rfl)
  · exact hplain _ (by rw [lookedAt, hthread]; rfl)
  · exact hplain _ (by rw [lookedAt, hthread]; rfl)
  · rw [h32, lookedAt, if_pos hseg]
    split_ifs <;> rfl
  · rw [h64, lookedAt, if_neg hseg, if_pos hseg64]
    split_ifs <;> rfl
  · exact hplain _ (by rw [lookedAt, if_neg hseg, if_neg hseg64])

theorem eight_le_lookedAt : 8 ≤ lookedAt b o := by
  unfold lookedAt
  split_ifs <;> decide

/-- **How much of a command is read.** -/
theorem within_walkCommand (ha : a ≤ w.currPtr) : Within (Set.Ico a e) b (walkCommand magic64 w) ↔
    w.currPtr + lookedAt b w.currPtr ≤ e := by
  have h8 := @eight_le_lookedAt b w.currPtr
  simp only [walkCommand, Probe.within_bind, within_read32_Ico, run_read32, currPtr_walkKind,
    Probe.within_pure, and_true]
  constructor
  · rintro ⟨-, hkind, hsize⟩
    exact (within_walkKind ha (by omega)).mp hkind
  · intro h
    exact ⟨by omega, (within_walkKind ha (by omega)).mpr h, by omega⟩

/-- **Where the walk reads**: in the commands that their sizes lead to. -/
theorem within_walk_iff (ha : a ≤ w.currPtr) : Within (Set.Ico a e) b (walk magic64 n w) ↔
    ∀ i < n, commandOffset b w.currPtr i + lookedAt b (commandOffset b w.currPtr i) ≤ e := by
  -- Induction on the commands left, from the one that the walk is at.
  induction n generalizing w with
  | zero => exact iff_of_true (Probe.within_pure w) fun i hi => absurd hi (Nat.not_lt_zero i)
  | succ n ih =>
    have hnext := @currPtr_walkCommand b w magic64
    rw [walk, Probe.within_bind, within_walkCommand ha, ih (by omega), hnext]
    constructor
    · rintro ⟨hfirst, hrest⟩ i hi
      cases i with
      | zero => exact hfirst
      | succ i => exact hrest i (by omega)
    · exact fun h => ⟨h 0 (by omega), fun i hi => h (i + 1) (by omega)⟩

/-! ## Where the entry point is -/

/-- The entry points that were found lie a bounded distance from where the commands end. -/
def Walked.Bounded (e : ℕ) (w : Walked) : Prop :=
  (∀ o, w.entry64 = some o → o + 8 ≤ e + 0x90) ∧ ∀ o, w.entry32 = some o → o + 4 ≤ e + 0x90

theorem bounded_walkSegment {get : ℕ → Probe ℕ ℕ} {vmaddr fileoff filesize : ℕ}
    (h : w.Bounded e) : ((walkSegment get vmaddr fileoff filesize w).run b).Bounded e := by
  rw [run_walkSegment]
  split_ifs <;> exact h

theorem bounded_walkCommand (h : w.Bounded e) (hend : w.currPtr + 8 ≤ e) :
    ((walkCommand magic64 w).run b).Bounded e := by
  simp only [walkCommand, Probe.run_bind, run_read32, Probe.run_pure]
  have hkind : ((walkKind magic64 (u32 b w.currPtr) w).run b).Bounded e := by
    unfold walkKind
    split_ifs
    · exact ⟨fun o ho => by obtain rfl := Option.some.inj ho; omega, h.2⟩
    · exact ⟨fun o ho => by obtain rfl := Option.some.inj ho; omega, h.2⟩
    · exact ⟨h.1, fun o ho => by obtain rfl := Option.some.inj ho; omega⟩
    · exact bounded_walkSegment h
    · exact bounded_walkSegment h
    · exact h
  exact hkind

theorem bounded_walk (h : w.Bounded e)
    (hin : ∀ i < n, commandOffset b w.currPtr i + 8 ≤ e) :
    ((walk magic64 n w).run b).Bounded e := by
  induction n generalizing w with
  | zero => exact h
  | succ n ih =>
    rw [walk, Probe.run_bind]
    refine ih (bounded_walkCommand h (hin 0 (by omega))) fun i hi => ?_
    rw [currPtr_walkCommand]
    exact hin (i + 1) (by omega)

end Reads

/-! ## Staying inside -/

/-- The walk over the commands is taken: the payload is small enough, the magic is known, and there
is a page behind the commands. -/
def WalkTaken (payload : List UInt8) (b : Buffer) : Prop :=
  payload.length ≤ PAGE_SIZE ∧ (u32 b 0 = MH_MAGIC_64 ∨ u32 b 0 = MH_MAGIC) ∧
    hdrSize (u32 b 0) + u32 b 20 + PAGE_SIZE ≤ tmpBufferSize

/-- **What should be**: the buffer is not left by any read or write, nor are the commands by the
walk. -/
structure StaysInside (baseAddr : VmAddress) (payload : List UInt8) (b : Buffer) : Prop where
  reads : payload.length ≤ PAGE_SIZE → Within (Set.Ico 0 tmpBufferSize) b (prepare baseAddr)
  writes : payload.length ≤ PAGE_SIZE → ∀ magic64 off entry newEp orgEp,
    (prepare baseAddr).run b = .ready magic64 off entry newEp orgEp →
      off + entry.length ≤ tmpBufferSize ∧ newEp + payload.length ≤ tmpBufferSize
  walk : WalkTaken payload b →
    Within (Set.Ico (hdrSize (u32 b 0)) (hdrSize (u32 b 0) + u32 b 20)) b
      (walkHeader (u32 b 0) (u32 b 16))

section Inside

variable {b : Buffer} {baseAddr : VmAddress} {payload : List UInt8} {w : Walked} {magic newEp : ℕ}

/-- **The walk stays inside the commands** if and only if what is looked at is inside. -/
theorem within_walkHeader_iff :
    Within (Set.Ico (hdrSize (u32 b 0)) (hdrSize (u32 b 0) + u32 b 20)) b
      (walkHeader (u32 b 0) (u32 b 16)) ↔ CommandsInside b :=
  within_walk_iff le_rfl

/-- The entry point is read and written where it was found. -/
theorem within_replaceEntry (h : w.Bounded newEp) (hnew : newEp + PAGE_SIZE ≤ tmpBufferSize) :
    Within (Set.Ico 0 tmpBufferSize) b (replaceEntry baseAddr magic newEp w) ∧
      ∀ magic64 off entry newEp' orgEp,
        (replaceEntry baseAddr magic newEp w).run b = .ready magic64 off entry newEp' orgEp →
          off + entry.length ≤ tmpBufferSize ∧ newEp' = newEp := by
  have hpage : PAGE_SIZE = 4096 := rfl
  unfold replaceEntry
  extract_lets vmBase orgEp dstEp
  split
  case h_1 off hoff =>
    have hend := h.1 off hoff
    refine ⟨?_, fun magic64 off' entry newEp' orgEp' heq => ?_⟩
    · rw [Probe.within_bind, within_read64_Ico]
      exact ⟨⟨Nat.zero_le _, by omega⟩, Probe.within_pure _⟩
    · simp only [Probe.run_bind, Probe.run_pure, Prepared.ready.injEq] at heq
      obtain ⟨-, rfl, rfl, rfl, -⟩ := heq
      rw [length_bytes]
      omega
  case h_2 off _ hoff =>
    have hend := h.2 off hoff
    refine ⟨?_, fun magic64 off' entry newEp' orgEp' heq => ?_⟩
    · rw [Probe.within_bind, within_read32_Ico]
      exact ⟨⟨Nat.zero_le _, by omega⟩, Probe.within_pure _⟩
    · simp only [Probe.run_bind, Probe.run_pure, Prepared.ready.injEq] at heq
      obtain ⟨-, rfl, rfl, rfl, -⟩ := heq
      rw [length_bytes]
      omega
  case h_3 =>
    exact ⟨Probe.within_pure _, fun _ _ _ _ _ heq => nomatch heq⟩

/-- What is prepared comes from the entry point that the walk has found. -/
theorem run_prepare : (prepare baseAddr).run b =
    if u32 b 0 = MH_MAGIC_64 ∨ u32 b 0 = MH_MAGIC then
      if tmpBufferSize < hdrSize (u32 b 0) + u32 b 20 + PAGE_SIZE then .refused
      else
        (replaceEntry baseAddr (u32 b 0) (hdrSize (u32 b 0) + u32 b 20)
          ((walkHeader (u32 b 0) (u32 b 16)).run b)).run b
    else .unknown := by
  simp only [prepare, Probe.run_bind, run_read32, Probe.run_ite, Probe.run_pure]

/-- Where there is no walk, only the header is read. -/
theorem within_prepare : Within (Set.Ico 0 tmpBufferSize) b (prepare baseAddr) ↔
    ((u32 b 0 = MH_MAGIC_64 ∨ u32 b 0 = MH_MAGIC) →
      hdrSize (u32 b 0) + u32 b 20 + PAGE_SIZE ≤ tmpBufferSize →
        Within (Set.Ico 0 tmpBufferSize) b (walkHeader (u32 b 0) (u32 b 16)) ∧
          Within (Set.Ico 0 tmpBufferSize) b (replaceEntry baseAddr (u32 b 0)
            (hdrSize (u32 b 0) + u32 b 20) ((walkHeader (u32 b 0) (u32 b 16)).run b))) := by
  have hhead : 0 + 4 ≤ tmpBufferSize ∧ 20 + 4 ≤ tmpBufferSize ∧ 16 + 4 ≤ tmpBufferSize := by decide
  simp only [prepare, Probe.within_bind, Probe.within_ite, Probe.within_pure, within_read32_Ico,
    run_read32, hhead, Nat.zero_le, true_and, implies_true, and_true, not_lt]

/-- **When the buffer and the commands are not left**: if as much of the commands as is looked at
ends inside `sizeofcmds`, or the walk is not taken. -/
theorem staysInside_iff (baseAddr : VmAddress) (payload : List UInt8) (b : Buffer) :
    StaysInside baseAddr payload b ↔ (WalkTaken payload b → CommandsInside b) := by
  constructor
  · exact fun h htaken => within_walkHeader_iff.mp (h.walk htaken)
  · intro h
    -- the entry point is a part of the last command at most, and is followed by a page
    have hfound (htaken : WalkTaken payload b) :
        ((walkHeader (u32 b 0) (u32 b 16)).run b).Bounded (hdrSize (u32 b 0) + u32 b 20) := by
      refine bounded_walk ⟨fun o ho => (nomatch ho), fun o ho => (nomatch ho)⟩ fun i hi => ?_
      exact le_trans (Nat.add_le_add_left eight_le_lookedAt _) (h htaken i hi)
    constructor
    case reads =>
      intro hpayload
      rw [within_prepare]
      intro hknown hfits
      have htaken : WalkTaken payload b := ⟨hpayload, hknown, hfits⟩
      refine ⟨(within_walkHeader_iff.mpr (h htaken)).mono fun k hk => ⟨Nat.zero_le k, ?_⟩,
        (within_replaceEntry (hfound htaken) hfits).1⟩
      exact hk.2.trans_le (le_trans (Nat.le_add_right _ _) hfits)
    case writes =>
      intro hpayload magic64 off entry newEp orgEp hready
      rw [run_prepare] at hready
      split_ifs at hready with hknown hfits
      have htaken : WalkTaken payload b := ⟨hpayload, hknown, not_lt.mp hfits⟩
      obtain ⟨hoff, rfl⟩ := (within_replaceEntry (hfound htaken) htaken.2.2).2 _ _ _ _ _ hready
      exact ⟨hoff, le_trans (Nat.add_le_add_left hpayload _) htaken.2.2⟩
    case walk => exact fun htaken => within_walkHeader_iff.mpr (h htaken)

end Inside

/-- Two commands in eight bytes, the first of which says that it has `0x10000`. -/
def longCommand : Buffer := fun k =>
  (leBytes 4 MH_MAGIC_64 ++ List.replicate 12 0 ++ leBytes 4 2 ++ leBytes 4 8 ++
    List.replicate 8 0 ++ leBytes 4 2 ++ leBytes 4 0x10000).getD k 0

theorem not_staysInside_long : ¬ StaysInside 0x1000 [0x90] longCommand := by
  intro h
  have htaken : WalkTaken [0x90] longCommand := ⟨by decide, by decide, by decide⟩
  -- the second command begins behind the buffer
  have htwo := within_walkHeader_iff.mp (h.walk htaken) 1 (by decide)
  exact absurd htwo (by decide)

end Lilu.UserPatcher
