import Lilu.User.Payload

/-!
# The entry point of a process

The loader takes the entry point of an image from its load commands: `LC_MAIN` has its offset in the
file, and a thread has its address, which is relative to the address that the start of the file is
linked to. `injectPayload` writes the payload behind the commands and changes the one field, so that
the loader comes to the payload.

## Main definitions

* `isEntry`, `baseVmaddr`: the commands that an entry point is computed from
* `loaderEntry`: the entry point as the loader computes it
* `HasFields`: a command has the fields that its kind has
* `Relocated`: the payload is written and is the entry point, and nothing else of the header has
  changed

## Main results

* `run_walk_commands`: the walk takes the commands one after the other
* `walked_entry`, `walked_base`: what is found, wherever it comes in the commands
* `injectPayload_relocated`: an image is relocated if the payload is injected
-/

namespace Lilu.UserPatcher

open Lilu.MachInfo (Buffer bytesAt u32 u64)
open Lilu.MachInfo.Reads (read32 read64 run_read32 run_read64)

/-! ## The loader -/

/-- The number of four bytes at an offset of a command. -/
def field32 (c : List UInt8) (o : ℕ) : ℕ :=
  leNat ((c.drop o).take 4)

/-- The number of eight bytes at an offset of a command. -/
def field64 (c : List UInt8) (o : ℕ) : ℕ :=
  leNat ((c.drop o).take 8)

/-- The kind of a command. -/
def kind (c : List UInt8) : ℕ :=
  field32 c 0

/-- A command with an entry point. -/
def isEntry (c : List UInt8) : Bool :=
  kind c = LC_MAIN ∨ kind c = LC_UNIXTHREAD

/-- The address that the start of the file is linked to, for a segment that maps it. -/
def baseVmaddr (c : List UInt8) : Option ℕ :=
  if kind c = LC_SEGMENT then
    if field32 c 32 = 0 ∧ 0 < field32 c 36 then some (field32 c 24) else none
  else if kind c = LC_SEGMENT_64 then
    if field64 c 40 = 0 ∧ 0 < field64 c 48 then some (field64 c 24) else none
  else none

/-- The offset and the size of an entry point in its command: `entryoff` of `LC_MAIN`, and the
program counter of a thread. -/
def entryField (magic64 : Bool) (c : List UInt8) : ℕ × ℕ :=
  if kind c = LC_MAIN then (0x8, 8) else if magic64 then (0x90, 8) else (0x38, 4)

/-- An address in as many bits as the process has. -/
def narrow (magic64 : Bool) (a : VmAddress) : VmAddress :=
  if magic64 then a else (a.setWidth 32).setWidth 64

/-- The entry point of an image that is loaded at `baseAddr`, for the value of its field. -/
def entryAddress (magic64 : Bool) (baseAddr : VmAddress) (vmBase : ℕ) (e : List UInt8) :
    VmAddress :=
  let (o, n) := entryField magic64 e
  let value := BitVec.ofNat 64 (leNat ((e.drop o).take n))
  narrow magic64 <|
    if kind e = LC_MAIN then value + baseAddr else value + baseAddr - BitVec.ofNat 64 vmBase

/-- **The entry point as the loader computes it**, if the commands have one of each. -/
def loaderEntry (magic64 : Bool) (baseAddr : VmAddress) (cs : List (List UInt8)) :
    Option VmAddress :=
  match cs.filter isEntry, cs.filterMap baseVmaddr with
  | [e], [vmBase] => some (entryAddress magic64 baseAddr vmBase e)
  | _, _ => none

/-- A command has the fields that its kind has. -/
structure HasFields (magic64 : Bool) (c : List UInt8) : Prop where
  entry : isEntry c → (entryField magic64 c).1 + (entryField magic64 c).2 ≤ c.length
  segment : kind c = LC_SEGMENT → 40 ≤ c.length
  segment64 : kind c = LC_SEGMENT_64 → 56 ≤ c.length

/-! ## The walk over commands -/

/-- What the loop takes from a command. -/
def walkedKind (magic64 : Bool) (w : Walked) (c : List UInt8) : Walked :=
  if kind c = LC_MAIN then { w with entry64 := some (w.currPtr + 0x8), vmEp := false }
  else if kind c = LC_UNIXTHREAD then
    if magic64 then { w with entry64 := some (w.currPtr + 0x90) }
    else { w with entry32 := some (w.currPtr + 0x38) }
  else
    match baseVmaddr c with
    | some vmaddr => { w with vmBase := BitVec.ofNat 64 vmaddr }
    | none => w

/-- What the loop does with a command. -/
def walked (magic64 : Bool) (w : Walked) (c : List UInt8) : Walked :=
  { walkedKind magic64 w c with currPtr := w.currPtr + c.length }

section Walk

variable {b : Buffer} {c : List UInt8} {cs : List (List UInt8)} {behind : List UInt8} {w : Walked}
  {magic64 : Bool} {o k n : ℕ}

/-- Part of some bytes of a buffer. -/
theorem bytesAt_part (h : bytesAt b o c.length = c) (hk : k + n ≤ c.length) :
    bytesAt b (o + k) n = (c.drop k).take n := by
  have hsplit : c.length = k + (n + (c.length - k - n)) := by omega
  rw [hsplit, bytesAt_add, bytesAt_add] at h
  have hleft := congrArg (List.drop k) h
  rw [List.drop_left' length_bytesAt] at hleft
  rw [← hleft, List.take_left' length_bytesAt]

theorem u32_part (h : bytesAt b o c.length = c) (hk : k + 4 ≤ c.length) :
    u32 b (o + k) = field32 c k :=
  congrArg leNat (bytesAt_part h hk)

theorem u64_part (h : bytesAt b o c.length = c) (hk : k + 8 ≤ c.length) :
    u64 b (o + k) = field64 c k :=
  congrArg leNat (bytesAt_part h hk)

theorem run_walkKind (h : bytesAt b w.currPtr c.length = c) (hfields : HasFields magic64 c) :
    (walkKind magic64 (kind c) w).run b = walkedKind magic64 w c := by
  unfold walkKind walkedKind
  split_ifs with hmain hthread hmagic hseg hseg64
  · rfl
  · rfl
  · rfl
  · have hlen := hfields.segment hseg
    rw [run_walkSegment, run_read32, run_read32, run_read32, u32_part h (by omega),
      u32_part h (by omega), u32_part h (by omega), baseVmaddr, if_pos hseg]
    split_ifs <;> rfl
  · have hlen := hfields.segment64 hseg64
    rw [run_walkSegment, run_read64, run_read64, run_read64, u64_part h (by omega),
      u64_part h (by omega), u64_part h (by omega), baseVmaddr, if_neg hseg, if_pos hseg64]
    split_ifs <;> rfl
  · rw [baseVmaddr, if_neg hseg, if_neg hseg64]
    rfl

theorem currPtr_walkedKind : (walkedKind magic64 w c).currPtr = w.currPtr := by
  unfold walkedKind
  split_ifs
  · rfl
  · rfl
  · rfl
  · split <;> rfl

/-- **A command is taken** as the buffer has it. -/
theorem run_walkCommand (h : bytesAt b w.currPtr c.length = c) (hsize : cmdsize c = c.length)
    (hlen : 8 ≤ c.length) (hfields : HasFields magic64 c) :
    (walkCommand magic64 w).run b = walked magic64 w c := by
  have hkind : u32 b w.currPtr = kind c := u32_part (k := 0) h (by omega)
  have hcmdsize : u32 b (w.currPtr + 4) = c.length := by
    rw [u32_part h (by omega), ← hsize]
    rfl
  simp only [walkCommand, Probe.run_bind, run_read32, Probe.run_pure, hkind, run_walkKind h hfields,
    currPtr_walkedKind, hcmdsize, walked]

/-- **The walk takes the commands** one after the other. -/
theorem run_walk_commands (h : bytesAt b w.currPtr cs.flatten.length = cs.flatten)
    (hall : ∀ c ∈ cs, (cmdsize c = c.length ∧ 8 ≤ c.length) ∧ HasFields magic64 c) :
    (walk magic64 cs.length w).run b = cs.foldl (walked magic64) w := by
  induction cs generalizing w with
  | nil => rfl
  | cons c cs ih =>
    obtain ⟨⟨⟨hsize, hlen⟩, hfields⟩, hall⟩ := List.forall_mem_cons.mp hall
    rw [List.flatten_cons, List.length_append, bytesAt_add] at h
    obtain ⟨hc, hcs⟩ := List.append_inj h length_bytesAt
    rw [List.length_cons, walk, Probe.run_bind, run_walkCommand hc hsize hlen hfields]
    exact ih hcs hall

/-! ## What is found -/

/-- A command that has no entry point leaves the one that was found. -/
theorem walked_of_not_entry (w : Walked) (h : isEntry c = false) :
    (walked magic64 w c).entry64 = w.entry64 ∧ (walked magic64 w c).entry32 = w.entry32 ∧
      (walked magic64 w c).vmEp = w.vmEp := by
  rw [isEntry, decide_eq_false_iff_not, not_or] at h
  simp only [walked, walkedKind, if_neg h.1, if_neg h.2]
  split <;> exact ⟨rfl, rfl, rfl⟩

theorem foldl_walked_of_not_entry (h : ∀ c ∈ cs, isEntry c = false) :
    (cs.foldl (walked magic64) w).entry64 = w.entry64 ∧
      (cs.foldl (walked magic64) w).entry32 = w.entry32 ∧
      (cs.foldl (walked magic64) w).vmEp = w.vmEp := by
  induction cs generalizing w with
  | nil => exact ⟨rfl, rfl, rfl⟩
  | cons c cs ih =>
    obtain ⟨hc, hcs⟩ := List.forall_mem_cons.mp h
    obtain ⟨h64, h32, hvm⟩ := @walked_of_not_entry c magic64 w hc
    obtain ⟨ih64, ih32, ihvm⟩ := @ih (walked magic64 w c) hcs
    rw [List.foldl_cons, ih64, ih32, ihvm]
    exact ⟨h64, h32, hvm⟩

theorem foldl_walked_currPtr :
    (cs.foldl (walked magic64) w).currPtr = w.currPtr + cs.flatten.length := by
  induction cs generalizing w with
  | nil => rfl
  | cons c cs ih =>
    have hc : (walked magic64 w c).currPtr = w.currPtr + c.length := rfl
    rw [List.foldl_cons, ih, List.flatten_cons, List.length_append, hc, Nat.add_assoc]

theorem walked_vmBase : (walked magic64 w c).vmBase =
    ((baseVmaddr c).map (BitVec.ofNat 64)).getD w.vmBase := by
  have hmain : LC_MAIN ≠ LC_SEGMENT ∧ LC_MAIN ≠ LC_SEGMENT_64 := by decide
  have hthread : LC_UNIXTHREAD ≠ LC_SEGMENT ∧ LC_UNIXTHREAD ≠ LC_SEGMENT_64 := by decide
  unfold walked walkedKind
  split_ifs with hkind hkind hmagic
  · rw [baseVmaddr, hkind, if_neg hmain.1, if_neg hmain.2]
    rfl
  · rw [baseVmaddr, hkind, if_neg hthread.1, if_neg hthread.2]
    rfl
  · rw [baseVmaddr, hkind, if_neg hthread.1, if_neg hthread.2]
    rfl
  · cases baseVmaddr c <;> rfl

/-- **The address of the start of the file** is that of the last segment that maps it. -/
theorem foldl_walked_vmBase : (cs.foldl (walked magic64) w).vmBase =
    ((cs.filterMap baseVmaddr).getLast?.map (BitVec.ofNat 64)).getD w.vmBase := by
  induction cs using List.reverseRecOn with
  | nil => rfl
  | append_singleton cs c ih =>
    rw [List.foldl_append, List.foldl_cons, List.foldl_nil, walked_vmBase, ih,
      List.filterMap_append]
    cases hc : baseVmaddr c with
    | none => rw [List.filterMap_cons_none hc, List.filterMap_nil, List.append_nil]; rfl
    | some v => rw [List.filterMap_cons_some hc, List.getLast?_append]; rfl

/-- What is found: the entry point of the command `e` at the offset `o`, and the address of the
start of the file. -/
structure Walked.Found (w : Walked) (magic64 : Bool) (o : ℕ) (e : List UInt8) (vmBase : ℕ) :
    Prop where
  main : kind e = LC_MAIN → w.entry64 = some (o + 0x8) ∧ w.vmEp = false
  thread64 : kind e ≠ LC_MAIN → magic64 = true → w.entry64 = some (o + 0x90) ∧ w.vmEp = true
  thread32 : kind e ≠ LC_MAIN → magic64 = false →
    w.entry64 = none ∧ w.entry32 = some (o + 0x38) ∧ w.vmEp = true
  base : w.vmBase = BitVec.ofNat 64 vmBase

/-- **What is found**, wherever it comes in the commands. -/
theorem found_walked {before after : List (List UInt8)} {e : List UInt8} {vmBase : ℕ}
    (hbefore : ∀ c ∈ before, isEntry c = false) (he : isEntry e = true)
    (hafter : ∀ c ∈ after, isEntry c = false)
    (hbase : (before ++ e :: after).filterMap baseVmaddr = [vmBase]) :
    ((before ++ e :: after).foldl (walked magic64) { currPtr := o }).Found magic64
      (o + before.flatten.length) e vmBase := by
  have hvm := @foldl_walked_vmBase (before ++ e :: after) { currPtr := o } magic64
  rw [hbase] at hvm
  obtain ⟨h64, h32, hep⟩ := @foldl_walked_of_not_entry before { currPtr := o } magic64 hbefore
  have hptr := @foldl_walked_currPtr before { currPtr := o } magic64
  rw [List.foldl_append, List.foldl_cons] at hvm ⊢
  generalize before.foldl (walked magic64) { currPtr := o } = w at *
  obtain ⟨h64', h32', hep'⟩ := @foldl_walked_of_not_entry after (walked magic64 w e) magic64 hafter
  rw [isEntry, decide_eq_true_eq] at he
  constructor
  case main =>
    intro hmain
    rw [h64', hep', walked, walkedKind, if_pos hmain, ← hptr]
    exact ⟨rfl, rfl⟩
  case thread64 =>
    intro hne hmagic
    rw [h64', hep', walked, walkedKind, if_neg hne, if_pos (he.resolve_left hne), if_pos hmagic,
      ← hptr]
    exact ⟨rfl, hep⟩
  case thread32 =>
    intro hne hmagic
    rw [h64', h32', hep', walked, walkedKind, if_neg hne, if_pos (he.resolve_left hne), hmagic,
      ← hptr]
    exact ⟨h64, rfl, hep⟩
  case base => exact hvm

end Walk

/-! ## The new entry point -/

section Entry

variable {b : Buffer} {e : List UInt8} {w : Walked} {magic64 : Bool} {baseAddr : VmAddress}
  {magic newEp o vmBase : ℕ}

/-- What is taken from the addresses of an image for its entry point. -/
def correction (e : List UInt8) (vmBase : ℕ) : BitVec 64 :=
  if kind e = LC_MAIN then 0 else BitVec.ofNat 64 vmBase

/-- The bytes of the new entry point. -/
def newEntry (magic64 : Bool) (e : List UInt8) (newEp vmBase : ℕ) : List UInt8 :=
  leBytes (entryField magic64 e).2 (BitVec.ofNat 64 newEp + correction e vmBase).toNat

/-- The command with the new entry point. -/
def newCommand (magic64 : Bool) (e : List UInt8) (newEp vmBase : ℕ) : List UInt8 :=
  e.take (entryField magic64 e).1 ++ newEntry magic64 e newEp vmBase ++
    e.drop ((entryField magic64 e).1 + (entryField magic64 e).2)

/-- A word in fewer bytes. -/
theorem bytes_setWidth (x : BitVec 64) : bytes (x.setWidth 32) = leBytes 4 x.toNat := by
  have hpow : (256 : ℕ) ^ 4 = 2 ^ 32 := by norm_num
  rw [bytes, BitVec.toNat_setWidth, ← hpow, leBytes_mod]

/-- **What is written for what is found.** -/
theorem run_replaceEntry (h : w.Found (magic = MH_MAGIC_64) o e vmBase) :
    (replaceEntry baseAddr magic newEp w).run b = .ready (magic = MH_MAGIC_64)
      (o + (entryField (magic = MH_MAGIC_64) e).1)
      (newEntry (magic = MH_MAGIC_64) e newEp vmBase) newEp
      (baseAddr - correction e vmBase + BitVec.ofNat 64 (leNat (bytesAt b
        (o + (entryField (magic = MH_MAGIC_64) e).1) (entryField (magic = MH_MAGIC_64) e).2))) := by
  unfold replaceEntry newEntry
  by_cases hmain : kind e = LC_MAIN
  · obtain ⟨h64, hep⟩ := h.main hmain
    simp only [h64, hep, entryField, correction, if_pos hmain, Probe.run_bind, run_read64,
      Probe.run_pure, Bool.false_eq_true, if_false]
    rfl
  · cases hmagic : decide (magic = MH_MAGIC_64) with
    | true =>
      obtain ⟨h64, hep⟩ := h.thread64 hmain hmagic
      simp only [h64, hep, h.base, entryField, correction, if_neg hmain, Probe.run_bind, run_read64,
        Probe.run_pure, if_true]
      rfl
    | false =>
      obtain ⟨h64, h32, hep⟩ := h.thread32 hmain hmagic
      simp only [h64, h32, hep, h.base, entryField, correction, if_neg hmain, Probe.run_bind,
        run_read32, Probe.run_pure, if_true, bytes_setWidth, Bool.false_eq_true, if_false]
      rfl

/-- **The entry point that was found** is that of the loader. -/
theorem narrow_orgEp : narrow magic64 (baseAddr - correction e vmBase + BitVec.ofNat 64
      (leNat ((e.drop (entryField magic64 e).1).take (entryField magic64 e).2))) =
    entryAddress magic64 baseAddr vmBase e := by
  rw [entryAddress]
  simp only
  generalize BitVec.ofNat 64 (leNat _) = value
  rw [correction]
  split_ifs
  · refine congrArg (narrow _) ?_
    bv_omega
  · refine congrArg (narrow _) ?_
    bv_omega

theorem eight_le_entryField : 8 ≤ (entryField magic64 e).1 := by
  unfold entryField
  split_ifs <;> decide

@[simp] theorem length_newEntry :
    (newEntry magic64 e newEp vmBase).length = (entryField magic64 e).2 :=
  length_leBytes _ _

theorem length_newCommand
    (h : (entryField magic64 e).1 + (entryField magic64 e).2 ≤ e.length) :
    (newCommand magic64 e newEp vmBase).length = e.length := by
  rw [newCommand, List.length_append, List.length_append, length_newEntry, List.length_take,
    List.length_drop]
  omega

/-- The kind and the size of the command are not changed. -/
theorem take_newCommand
    (h : (entryField magic64 e).1 + (entryField magic64 e).2 ≤ e.length) :
    (newCommand magic64 e newEp vmBase).take 8 = e.take 8 := by
  have h8 := @eight_le_entryField e magic64
  rw [newCommand, List.append_assoc, List.take_append_of_le_length, List.take_take,
    Nat.min_eq_left h8]
  rw [List.length_take]
  omega

theorem cmdsize_newCommand
    (h : (entryField magic64 e).1 + (entryField magic64 e).2 ≤ e.length) :
    cmdsize (newCommand magic64 e newEp vmBase) = cmdsize e := by
  rw [← cmdsize_take le_rfl, take_newCommand h, cmdsize_take le_rfl]

theorem kind_newCommand
    (h : (entryField magic64 e).1 + (entryField magic64 e).2 ≤ e.length) :
    kind (newCommand magic64 e newEp vmBase) = kind e := by
  have hkind (c : List UInt8) : kind c = leNat ((c.take 8).take 4) := by
    rw [List.take_take]
    rfl
  rw [hkind, take_newCommand h, ← hkind]

/-- The new entry point is in its place. -/
theorem field_newCommand
    (h : (entryField magic64 e).1 + (entryField magic64 e).2 ≤ e.length) :
    ((newCommand magic64 e newEp vmBase).drop (entryField magic64 e).1).take
      (entryField magic64 e).2 = newEntry magic64 e newEp vmBase := by
  have hlen : (e.take (entryField magic64 e).1).length = (entryField magic64 e).1 := by
    rw [List.length_take]
    omega
  rw [newCommand, List.append_assoc, List.drop_left' hlen, List.take_left' length_newEntry]

theorem baseVmaddr_of_entry {c : List UInt8} (h : isEntry c = true) : baseVmaddr c = none := by
  have hmain : LC_MAIN ≠ LC_SEGMENT ∧ LC_MAIN ≠ LC_SEGMENT_64 := by decide
  have hthread : LC_UNIXTHREAD ≠ LC_SEGMENT ∧ LC_UNIXTHREAD ≠ LC_SEGMENT_64 := by decide
  rw [isEntry, decide_eq_true_eq] at h
  rcases h with h | h
  · rw [baseVmaddr, h, if_neg hmain.1, if_neg hmain.2]
  · rw [baseVmaddr, h, if_neg hthread.1, if_neg hthread.2]

/-- In as many bits as the process has, all but the low bits of an address do not matter. -/
theorem narrow_congr {x y : VmAddress} (h : x.setWidth 32 = y.setWidth 32) :
    narrow false x = narrow false y :=
  congrArg (BitVec.setWidth 64) h

/-- A word is read as it was written. -/
theorem ofNat_leBytes (x : BitVec 64) : BitVec.ofNat 64 (leNat (leBytes 8 x.toNat)) = x := by
  have hpow : (256 : ℕ) ^ 8 = 2 ^ 64 := by norm_num
  rw [leNat_leBytes, hpow, Nat.mod_eq_of_lt (BitVec.isLt _), BitVec.ofNat_toNat, BitVec.setWidth_eq]

/-- Its low bytes are read as they were written. -/
theorem setWidth_ofNat_leBytes (x : BitVec 64) :
    (BitVec.ofNat 64 (leNat (leBytes 4 x.toNat))).setWidth 32 = x.setWidth 32 := by
  have hpow : (256 : ℕ) ^ 4 = 2 ^ 32 := by norm_num
  apply BitVec.eq_of_toNat_eq
  rw [leNat_leBytes, hpow, BitVec.toNat_setWidth, BitVec.toNat_setWidth, BitVec.toNat_ofNat,
    Nat.mod_mod_of_dvd _ (by norm_num), Nat.mod_mod]

/-- **The loader comes to the payload.** -/
theorem entryAddress_newCommand
    (h : (entryField magic64 e).1 + (entryField magic64 e).2 ≤ e.length) :
    entryAddress magic64 baseAddr vmBase (newCommand magic64 e newEp vmBase) =
      narrow magic64 (baseAddr + BitVec.ofNat 64 newEp) := by
  have hkind : kind (newCommand magic64 e newEp vmBase) = kind e := kind_newCommand h
  have hfield : entryField magic64 (newCommand magic64 e newEp vmBase) = entryField magic64 e := by
    rw [entryField, hkind, entryField]
  rw [entryAddress, hfield]
  simp only
  rw [field_newCommand h, hkind, newEntry, correction, entryField]
  split_ifs with hmain hmagic
  · rw [ofNat_leBytes]
    refine congrArg (narrow _) ?_
    bv_omega
  · rw [ofNat_leBytes]
    refine congrArg (narrow _) ?_
    bv_omega
  · -- four bytes of the address are written, and four are used
    rw [Bool.not_eq_true] at hmagic
    subst hmagic
    apply narrow_congr
    rw [BitVec.sub_eq_add_neg, BitVec.setWidth_add _ _ (by decide),
      BitVec.setWidth_add _ _ (by decide), setWidth_ofNat_leBytes,
      ← BitVec.setWidth_add _ _ (by decide), ← BitVec.setWidth_add _ _ (by decide),
      ← BitVec.sub_eq_add_neg]
    refine congrArg (BitVec.setWidth 32) ?_
    bv_omega

end Entry

/-! ## The new image -/

section Image

variable {b : Buffer} {bs : List UInt8} {o n p : ℕ}

theorem bytesAt_congr {b' : Buffer} (h : ∀ k, o ≤ k → k < o + n → b k = b' k) :
    bytesAt b o n = bytesAt b' o n := by
  refine List.map_congr_left fun k hk => ?_
  have hlt := List.mem_range.mp hk
  exact h (o + k) (by omega) (by omega)

theorem splice_of_not_mem {k : ℕ} (h : k < p ∨ p + bs.length ≤ k) : splice b p bs k = b k := by
  rw [splice]
  split_ifs with hk
  · rfl
  · rw [List.getElem?_eq_none (by omega), Option.getD_none]

/-- What is put to a buffer is there. -/
theorem bytesAt_splice : bytesAt (splice b p bs) p bs.length = bs := by
  apply List.ext_getElem?
  intro k
  by_cases hk : k < bs.length
  · rw [getElem?_bytesAt hk, splice, if_neg (by omega), Nat.add_sub_cancel_left,
      List.getElem?_eq_getElem hk, Option.getD_some]
  · rw [List.getElem?_eq_none (by rw [length_bytesAt]; omega), List.getElem?_eq_none (by omega)]

/-- Elsewhere the buffer is as it was. -/
theorem bytesAt_splice_of_disjoint (h : o + n ≤ p ∨ p + bs.length ≤ o) :
    bytesAt (splice b p bs) o n = bytesAt b o n :=
  bytesAt_congr fun k hle hlt => splice_of_not_mem (by omega)

/-- What is put inside of some bytes replaces as many. -/
theorem bytesAt_splice_inside {l : List UInt8} (h : bytesAt b o l.length = l)
    (hp : p + bs.length ≤ l.length) : bytesAt (splice b (o + p) bs) o l.length =
      l.take p ++ bs ++ l.drop (p + bs.length) := by
  have hbefore : bytesAt b o p = l.take p := @bytesAt_part b l o 0 p h (by omega)
  have hbehind := @bytesAt_part b l o (p + bs.length) (l.length - (p + bs.length)) h (by omega)
  rw [List.take_of_length_le (by rw [List.length_drop])] at hbehind
  have hlen : l.length = p + (bs.length + (l.length - (p + bs.length))) := by omega
  conv_lhs => rw [hlen]
  rw [bytesAt_add, bytesAt_add, bytesAt_splice, bytesAt_splice_of_disjoint (.inl le_rfl),
    bytesAt_splice_of_disjoint (.inr le_rfl), hbefore, Nat.add_assoc, hbehind, List.append_assoc]

/-- The image of a process whose first bytes are written from a buffer. -/
theorem imageAt_write {m : ProcessMap} {baseAddr : VmAddress} {k : ℕ} (hn : n ≤ 2 ^ 64)
    (hk : k < n) : imageAt (m.write baseAddr (bytesAt b 0 n)) baseAddr k = b k := by
  have hsub : (baseAddr + BitVec.ofNat 64 k - baseAddr).toNat = k := by
    rw [BitVec.add_comm, BitVec.add_sub_cancel, BitVec.toNat_ofNat]
    exact Nat.mod_eq_of_lt (by omega)
  have hget : store m.memory baseAddr (bytesAt b 0 n) (baseAddr + BitVec.ofNat 64 k) =
      ((bytesAt b 0 n)[(baseAddr + BitVec.ofNat 64 k - baseAddr).toNat]?).getD _ := rfl
  rw [imageAt, ProcessMap.write]
  dsimp only
  rw [hget, hsub, getElem?_bytesAt hk, Option.getD_some, Nat.zero_add]

end Image

section Commands

variable {b : Buffer} {before after : List (List UInt8)} {e rest : List UInt8} {magic64 : Bool}
  {newEp o n vmBase : ℕ}

/-- **The new commands** are the old ones, but for the entry point. -/
theorem bytesAt_newCommands
    (hfield : (entryField magic64 e).1 + (entryField magic64 e).2 ≤ e.length)
    (h : bytesAt b o n = (before ++ e :: after).flatten ++ rest) :
    bytesAt (splice b (o + before.flatten.length + (entryField magic64 e).1)
        (newEntry magic64 e newEp vmBase)) o n =
      (before ++ newCommand magic64 e newEp vmBase :: after).flatten ++ rest := by
  have hn : n = ((before ++ e :: after).flatten ++ rest).length := by rw [← h, length_bytesAt]
  rw [hn] at h
  have hlist (c : List UInt8) : (before ++ c :: after).flatten ++ rest =
      before.flatten ++ (c ++ (after.flatten ++ rest)) := by
    rw [List.flatten_append, List.flatten_cons, List.append_assoc, List.append_assoc]
  have hinside : before.flatten.length + (entryField magic64 e).1 +
      (newEntry magic64 e newEp vmBase).length ≤
        ((before ++ e :: after).flatten ++ rest).length := by
    rw [hlist, List.length_append, List.length_append, length_newEntry]
    omega
  rw [hn, Nat.add_assoc o, bytesAt_splice_inside h hinside, hlist, hlist, length_newEntry,
    List.take_length_add_append, Nat.add_assoc, List.drop_length_add_append,
    List.take_append_of_le_length (by omega), List.drop_append_of_le_length hfield, newCommand]
  simp only [List.append_assoc]

end Commands

/-! ## The injection -/

section Injection

variable {K : VmKernel} {s : Vm} {baseAddr : VmAddress} {payload : List UInt8} {behind b : Buffer}

theorem closePages_memory {prots : List SavedProt} :
    (closePages K prots s).map.memory = s.map.memory := by
  induction prots generalizing s with
  | nil => rfl
  | cons e prots ih =>
    rw [closePages]
    simp only
    split_ifs
    · rw [ih, vmProtect_memory]
    · exact vmProtect_memory K
    · exact ih

/-- Pages that are written have the bytes of the buffer. -/
theorem writePages_image (h : (writePages K baseAddr b s).1 = true) {k : ℕ}
    (hk : k < tmpBufferSize) : imageAt (writePages K baseAddr b s).2.map baseAddr k = b k := by
  rw [writePages] at h ⊢
  generalize openPages K _ s = opened at h ⊢
  obtain ⟨ok, prots, s₁⟩ := opened
  cases ok with
  | false => exact absurd h Bool.false_ne_true
  | true =>
    simp only at h ⊢
    split_ifs at h ⊢ with hr
    · have hwrite : (orgVmMapWriteUser K baseAddr (bytesAt b 0 tmpBufferSize) s₁).2.map =
          s₁.map.write baseAddr (bytesAt b 0 tmpBufferSize) := by
        rw [orgVmMapWriteUser, Vm.call] at hr ⊢
        exact if_pos hr
      rw [imageAt, closePages_memory, hwrite]
      exact imageAt_write (by decide) hk

/-- The header of the buffer is that of the image. -/
theorem u32_buffer {image : Buffer} (himage : ∀ k < tmpBufferSize, b k = image k) {o : ℕ}
    (ho : o + 4 ≤ 28) : u32 b o = u32 image o := by
  refine congrArg leNat (bytesAt_congr fun k _ hk => himage k ?_)
  simp only [tmpBufferSize, PAGE_SIZE]
  omega

/-- The buffer that is read has the bytes of the image. -/
theorem buffer_image {m : ProcessMap} {k : ℕ} (hk : k < tmpBufferSize) :
    ((load m.memory baseAddr tmpBufferSize)[k]?).getD (behind k) = imageAt m baseAddr k := by
  rw [getElem?_load hk, Option.getD_some, imageAt]

theorem replaceEntry_ne_unknown {magic newEp : ℕ} {w : Walked} :
    (replaceEntry baseAddr magic newEp w).run b ≠ .unknown := by
  unfold replaceEntry
  extract_lets vmBase orgEp dstEp
  split
  · rw [Probe.run_bind, Probe.run_pure]
    exact Prepared.noConfusion
  · rw [Probe.run_bind, Probe.run_pure]
    exact Prepared.noConfusion
  · rw [Probe.run_pure]
    exact Prepared.noConfusion

/-- **What a successful injection has done**: the buffer was prepared and written back, with the
payload in it. -/
theorem injectPayload_returned (hknown : u32 (imageAt s.map baseAddr) 0 = MH_MAGIC_64 ∨
      u32 (imageAt s.map baseAddr) 0 = MH_MAGIC)
    (h : (injectPayload K baseAddr payload behind s).1.returned = true) :
    ∃ (b : Buffer) (magic64 : Bool) (off : ℕ) (entry : List UInt8) (newEp : ℕ) (orgEp : BitVec 64),
      (∀ k < tmpBufferSize, b k = imageAt s.map baseAddr k) ∧
      payload.length ≤ PAGE_SIZE ∧
      (prepare baseAddr).run b = .ready magic64 off entry newEp orgEp ∧
      (injectPayload K baseAddr payload behind s).1.ep = some (narrow magic64 orgEp) ∧
      ∀ k < tmpBufferSize, imageAt (injectPayload K baseAddr payload behind s).2.map baseAddr k =
        splice (splice b off entry) newEp payload k := by
  unfold injectPayload at h ⊢
  rw [orgVmMapReadUser_eq] at h ⊢
  by_cases hlong : PAGE_SIZE < payload.length
  · rw [if_pos hlong] at h
    exact absurd h Bool.false_ne_true
  rw [if_neg hlong] at h ⊢
  by_cases hread : K.answer (.read baseAddr tmpBufferSize) s = KERN_SUCCESS
  · rw [if_pos hread] at h ⊢
    simp only at h ⊢
    generalize hb : (fun k => ((load s.map.memory baseAddr tmpBufferSize)[k]?).getD (behind k)) =
      b at h ⊢
    have himage : ∀ k < tmpBufferSize, b k = imageAt s.map baseAddr k := fun k hk =>
      (congrFun hb.symm k).trans (buffer_image hk)
    have hmagic : u32 b 0 = u32 (imageAt s.map baseAddr) 0 := u32_buffer himage (by omega)
    cases hready : (prepare baseAddr).run b with
    | unknown =>
      -- the magic is known
      rw [run_prepare, hmagic, if_pos hknown] at hready
      split_ifs at hready
      exact absurd hready replaceEntry_ne_unknown
    | refused =>
      rw [hready] at h
      exact absurd h Bool.false_ne_true
    | ready magic64 off entry newEp orgEp =>
      rw [hready] at h
      simp only at h
      refine ⟨b, magic64, off, entry, newEp, orgEp, himage, not_lt.mp hlong, hready, rfl, ?_⟩
      exact fun k hk => writePages_image h hk
  · rw [if_neg hread] at h
    exact absurd h Bool.false_ne_true

end Injection

/-! ## Relocation -/

/-- Whether an image has 64 bits. -/
def magic64 (image : Buffer) : Bool :=
  u32 image 0 = MH_MAGIC_64

/-- The end of the commands, where the payload is put. -/
def commandsEnd (image : Buffer) : ℕ :=
  hdrSize (u32 image 0) + u32 image 20

/-- **What should be**: `ep` is the entry point there was, the payload is behind the commands and is
where the loader goes to, and the header has no other byte changed than those of the entry point in
the command `e`. -/
structure Relocated (baseAddr : VmAddress) (payload : List UInt8) (cs : List (List UInt8))
    (e : List UInt8) (ep : Option VmAddress) (image image' : Buffer) : Prop where
  ep : ep = loaderEntry (magic64 image) baseAddr cs
  payload : bytesAt image' (commandsEnd image) payload.length = payload
  entry : ∃ cs' rest, imageCommands image' = some (cs', rest) ∧
    loaderEntry (magic64 image') baseAddr cs' =
      some (narrow (magic64 image) (baseAddr + BitVec.ofNat 64 (commandsEnd image)))
  header : ∃ before after, cs = before ++ e :: after ∧
    ∀ k < commandsEnd image,
      k < hdrSize (u32 image 0) + before.flatten.length + (entryField (magic64 image) e).1 ∨
        hdrSize (u32 image 0) + before.flatten.length + (entryField (magic64 image) e).1 +
          (entryField (magic64 image) e).2 ≤ k →
      image' k = image k

section Relocation

variable {before after : List (List UInt8)} {e rest : List UInt8} {image : Buffer}
  {baseAddr : VmAddress} {m64 : Bool} {newEp vmBase : ℕ}

/-- The loader's view of commands with one entry point. -/
theorem loaderEntry_eq {cs : List (List UInt8)} (hentry : cs.filter isEntry = [e])
    (hbase : cs.filterMap baseVmaddr = [vmBase]) :
    loaderEntry m64 baseAddr cs = some (entryAddress m64 baseAddr vmBase e) := by
  rw [loaderEntry, hentry, hbase]

/-- **The loader goes to the payload**, with the new entry point in place of the old one. -/
theorem loaderEntry_newCommand (hbefore : ∀ c ∈ before, isEntry c = false) (he : isEntry e = true)
    (hafter : ∀ c ∈ after, isEntry c = false)
    (hbase : (before ++ e :: after).filterMap baseVmaddr = [vmBase])
    (hfield : (entryField m64 e).1 + (entryField m64 e).2 ≤ e.length) :
    loaderEntry m64 baseAddr (before ++ newCommand m64 e newEp vmBase :: after) =
      some (narrow m64 (baseAddr + BitVec.ofNat 64 newEp)) := by
  have he' : isEntry (newCommand m64 e newEp vmBase) = true := by
    rw [isEntry, kind_newCommand hfield, ← isEntry, he]
  have hnone {l : List (List UInt8)} (h : ∀ c ∈ l, isEntry c = false) : l.filter isEntry = [] :=
    List.filter_eq_nil_iff.mpr fun c hc => by rw [h c hc]; exact Bool.false_ne_true
  rw [← entryAddress_newCommand hfield]
  apply loaderEntry_eq
  · rw [List.filter_append, hnone hbefore, List.filter_cons_of_pos he', hnone hafter]
    rfl
  · rw [List.filterMap_append, List.filterMap_cons_none (baseVmaddr_of_entry he)] at hbase
    rw [List.filterMap_append, List.filterMap_cons_none (baseVmaddr_of_entry he'), hbase]

theorem known_of_commands {r : List (List UInt8) × List UInt8} (h : imageCommands image = some r) :
    u32 image 0 = MH_MAGIC_64 ∨ u32 image 0 = MH_MAGIC := by
  rw [imageCommands] at h
  split_ifs at h with hknown
  exact hknown

/-- The buffer has the commands of the image, and the walk takes them. -/
theorem run_walkHeader_commands {b : Buffer} {cs : List (List UInt8)}
    (himage : ∀ k < tmpBufferSize, b k = image k) (hcs : imageCommands image = some (cs, rest))
    (hfields : ∀ c ∈ cs, HasFields (magic64 image) c)
    (hfits : commandsEnd image + PAGE_SIZE ≤ tmpBufferSize) :
    bytesAt b (hdrSize (u32 image 0)) cs.flatten.length = cs.flatten ∧
      (walkHeader (u32 image 0) (u32 image 16)).run b =
        cs.foldl (walked (magic64 image)) { currPtr := hdrSize (u32 image 0) } := by
  rw [imageCommands, if_pos (known_of_commands hcs)] at hcs
  obtain ⟨hflat, hlen, hall⟩ := splitCommands_iff.mp hcs
  have hbuffer : bytesAt b (hdrSize (u32 image 0)) (u32 image 20) = cs.flatten ++ rest := by
    rw [hflat]
    refine bytesAt_congr fun k _ hk => himage k ?_
    rw [commandsEnd] at hfits
    omega
  have hsize : u32 image 20 = (cs.flatten ++ rest).length := by
    rw [← hbuffer, length_bytesAt]
  rw [hsize] at hbuffer
  have hflatten : bytesAt b (hdrSize (u32 image 0)) cs.flatten.length = cs.flatten := by
    have hpart := @bytesAt_part b _ (hdrSize (u32 image 0)) 0 cs.flatten.length hbuffer
      (by rw [List.length_append]; omega)
    rwa [List.drop_zero, List.take_left' rfl, Nat.add_zero] at hpart
  refine ⟨hflatten, ?_⟩
  rw [walkHeader, ← hlen]
  exact run_walk_commands hflatten fun c hc => ⟨hall c hc, hfields c hc⟩

variable (baseAddr) in
/-- **What is prepared** for an image with one entry point and one segment that maps the start of
the file. -/
theorem run_prepare_commands {b : Buffer}
    (himage : ∀ k < tmpBufferSize, b k = image k)
    (hcs : imageCommands image = some (before ++ e :: after, rest))
    (hfields : ∀ c ∈ before ++ e :: after, HasFields (magic64 image) c)
    (hbefore : ∀ c ∈ before, isEntry c = false) (he : isEntry e = true)
    (hafter : ∀ c ∈ after, isEntry c = false)
    (hbase : (before ++ e :: after).filterMap baseVmaddr = [vmBase])
    (hfits : commandsEnd image + PAGE_SIZE ≤ tmpBufferSize) :
    (prepare baseAddr).run b = .ready (magic64 image)
      (hdrSize (u32 image 0) + before.flatten.length + (entryField (magic64 image) e).1)
      (newEntry (magic64 image) e (commandsEnd image) vmBase) (commandsEnd image)
      (baseAddr - correction e vmBase + BitVec.ofNat 64 (leNat
        ((e.drop (entryField (magic64 image) e).1).take (entryField (magic64 image) e).2))) := by
  obtain ⟨hflatten, hwalk⟩ := run_walkHeader_commands himage hcs hfields hfits
  rw [run_prepare, u32_buffer himage (by omega), u32_buffer himage (by omega),
    u32_buffer himage (by omega), if_pos (known_of_commands hcs), ← commandsEnd,
    if_neg (not_lt.mpr hfits)]
  have hfound : ((before ++ e :: after).foldl (walked (magic64 image))
      { currPtr := hdrSize (u32 image 0) }).Found (magic64 image) _ e vmBase :=
    found_walked hbefore he hafter hbase
  -- the command with the entry point, and its field
  have hcommand : bytesAt b (hdrSize (u32 image 0) + before.flatten.length) e.length = e := by
    rw [bytesAt_part hflatten
      (by simp only [List.length_append, List.flatten_append, List.flatten_cons]; omega),
      List.flatten_append, List.flatten_cons, List.drop_left' rfl, List.take_left' rfl]
  have hfield := (hfields e (by simp)).entry he
  rw [hwalk]
  refine (run_replaceEntry hfound).trans ?_
  have hvalue := bytesAt_part hcommand hfield
  rw [← magic64, hvalue]

/-- What is not refused fits the buffer. -/
theorem fits_of_ready {b : Buffer} (himage : ∀ k < tmpBufferSize, b k = image k)
    {off newEp : ℕ} {entry : List UInt8} {orgEp : BitVec 64}
    (h : (prepare baseAddr).run b = .ready m64 off entry newEp orgEp) :
    commandsEnd image + PAGE_SIZE ≤ tmpBufferSize := by
  rw [run_prepare, u32_buffer himage (by omega), u32_buffer himage (by omega)] at h
  split_ifs at h with hknown hlong
  exact not_lt.mp hlong

/-- The new image has the new commands. -/
theorem imageCommands_newCommand {image' : Buffer}
    (hcs : imageCommands image = some (before ++ e :: after, rest))
    (hfield : (entryField (magic64 image) e).1 + (entryField (magic64 image) e).2 ≤ e.length)
    (hnew : ∀ k < commandsEnd image, image' k = splice image
      (hdrSize (u32 image 0) + before.flatten.length + (entryField (magic64 image) e).1)
      (newEntry (magic64 image) e newEp vmBase) k) :
    u32 image' 0 = u32 image 0 ∧ imageCommands image' =
      some (before ++ newCommand (magic64 image) e newEp vmBase :: after, rest) := by
  have hhdr := header_le (u32 image 0)
  have h8 := @eight_le_entryField e (magic64 image)
  have hend : 28 ≤ commandsEnd image := hhdr.1.trans (Nat.le_add_right _ _)
  have hnumber {o : ℕ} (ho : o + 4 ≤ 28) : u32 image' o = u32 image o := by
    refine congrArg leNat (bytesAt_congr fun k _ hk => ?_)
    rw [hnew k (by omega), splice_of_not_mem (.inl (by omega))]
  refine ⟨hnumber (by omega), ?_⟩
  rw [imageCommands] at hcs ⊢
  rw [hnumber (by omega), hnumber (by omega), hnumber (by omega)]
  split_ifs at hcs ⊢ with hknown
  obtain ⟨hflat, hlen, hall⟩ := splitCommands_iff.mp hcs
  have hbytes : bytesAt image' (hdrSize (u32 image 0)) (u32 image 20) =
      (before ++ newCommand (magic64 image) e newEp vmBase :: after).flatten ++ rest := by
    rw [← bytesAt_newCommands hfield hflat.symm]
    exact bytesAt_congr fun k _ hk => hnew k hk
  rw [splitCommands_iff, hbytes]
  refine ⟨rfl, ?_, fun c hc => ?_⟩
  · rw [← hlen, List.length_append, List.length_append]
    rfl
  · -- the new command is as long as the old one, and says so
    rcases List.mem_append.mp hc with hc | hc
    · exact hall c (List.mem_append_left _ hc)
    · rcases List.mem_cons.mp hc with rfl | hc
      · rw [cmdsize_newCommand hfield, length_newCommand hfield]
        exact hall e (by simp)
      · exact hall c (by simp [hc])

end Relocation

/-! ### Success -/

section Success

variable {K : VmKernel} {s : Vm} {baseAddr : VmAddress} {b : Buffer}

theorem vmProtect_of_success (hK : ∀ c s, K.answer c s = KERN_SUCCESS) {off : VmAddress} {n : ℕ}
    {prot : VmProt} : (vmProtect K off n prot s).1 = KERN_SUCCESS := by
  obtain ⟨s₁, -, -, heq⟩ := vmProtect_eq K off n prot s
  rw [heq]
  exact hK _ _

theorem openPages_of_success (hK : ∀ c s, K.answer c s = KERN_SUCCESS) {offs : List VmAddress} :
    (openPages K offs s).1 = true := by
  induction offs generalizing s with
  | nil => rfl
  | cons off offs ih =>
    rw [openPages]
    simp only
    split_ifs with hwrite hok hok
    · exact ih
    · exact absurd (vmProtect_of_success hK) hok
    · exact ih
    · exact absurd rfl hok

theorem writePages_of_success (hK : ∀ c s, K.answer c s = KERN_SUCCESS) :
    (writePages K baseAddr b s).1 = true := by
  have hopen : (openPages K [baseAddr, baseAddr + BitVec.ofNat 64 PAGE_SIZE,
      baseAddr + BitVec.ofNat 64 (2 * PAGE_SIZE)] s).1 = true :=
    openPages_of_success hK
  rw [writePages]
  generalize openPages K _ s = opened at hopen ⊢
  obtain ⟨ok, prots, s₁⟩ := opened
  obtain rfl : ok = true := hopen
  have hwrite : (orgVmMapWriteUser K baseAddr (bytesAt b 0 tmpBufferSize) s₁).1 = KERN_SUCCESS :=
    hK _ _
  simp only [hwrite, if_true]

/-- **An injection succeeds** if no call is refused, and the buffer has room for the payload. -/
theorem injectPayload_succeeds (hK : ∀ c s, K.answer c s = KERN_SUCCESS) {payload : List UInt8}
    {behind : Buffer} {cs : List (List UInt8)} {e rest : List UInt8} {vmBase : ℕ}
    (hcs : imageCommands (imageAt s.map baseAddr) = some (cs, rest))
    (hfields : ∀ c ∈ cs, HasFields (magic64 (imageAt s.map baseAddr)) c)
    (hentry : cs.filter isEntry = [e]) (hbase : cs.filterMap baseVmaddr = [vmBase])
    (hpayload : payload.length ≤ PAGE_SIZE)
    (hfits : commandsEnd (imageAt s.map baseAddr) + PAGE_SIZE ≤ tmpBufferSize) :
    (injectPayload K baseAddr payload behind s).1.returned = true := by
  obtain ⟨before, after, rfl, hbefore, he, hafter⟩ := List.filter_eq_cons_iff.mp hentry
  have hready := run_prepare_commands baseAddr (b := fun k =>
      ((load s.map.memory baseAddr tmpBufferSize)[k]?).getD (behind k))
    (fun k hk => buffer_image hk) hcs hfields (fun c hc => Bool.eq_false_iff.mpr (hbefore c hc)) he
    (fun c hc => Bool.eq_false_iff.mpr (List.filter_eq_nil_iff.mp hafter c hc)) hbase hfits
  rw [injectPayload, if_neg (not_lt.mpr hpayload), orgVmMapReadUser_eq, if_pos (hK _ _)]
  simp only [hready]
  exact writePages_of_success hK

end Success

/-! ### The entry point -/

/-- **An image is relocated** if the payload is injected, in whatever order its commands are and
whatever kind of entry point it has. -/
theorem injectPayload_relocated (K : VmKernel) (s : Vm) (baseAddr : VmAddress)
    (payload : List UInt8) (behind : Buffer) (cs : List (List UInt8)) (e rest : List UInt8)
    (vmBase : ℕ) (hcs : imageCommands (imageAt s.map baseAddr) = some (cs, rest))
    (hfields : ∀ c ∈ cs, HasFields (magic64 (imageAt s.map baseAddr)) c)
    (hentry : cs.filter isEntry = [e]) (hbase : cs.filterMap baseVmaddr = [vmBase])
    (hreturned : (injectPayload K baseAddr payload behind s).1.returned = true) :
    Relocated baseAddr payload cs e (injectPayload K baseAddr payload behind s).1.ep
      (imageAt s.map baseAddr)
      (imageAt (injectPayload K baseAddr payload behind s).2.map baseAddr) := by
  have hloader : loaderEntry (magic64 (imageAt s.map baseAddr)) baseAddr cs = some _ :=
    loaderEntry_eq hentry hbase
  obtain ⟨before, after, rfl, hbefore, he, hafter⟩ := List.filter_eq_cons_iff.mp hentry
  have hbefore : ∀ c ∈ before, isEntry c = false := fun c hc => Bool.eq_false_iff.mpr (hbefore c hc)
  have hafter : ∀ c ∈ after, isEntry c = false := fun c hc =>
    Bool.eq_false_iff.mpr (List.filter_eq_nil_iff.mp hafter c hc)
  have hfield := (hfields e (by simp)).entry he
  have hknown := known_of_commands hcs
  obtain ⟨b, m64, off, entry, newEp, orgEp, himage, hpayload, hready, hep, hnew⟩ :=
    injectPayload_returned hknown hreturned
  have hfits := fits_of_ready himage hready
  have hprepared := run_prepare_commands baseAddr himage hcs hfields hbefore he hafter hbase hfits
  rw [hready, Prepared.ready.injEq] at hprepared
  obtain ⟨rfl, rfl, rfl, rfl, rfl⟩ := hprepared
  generalize imageAt (injectPayload K baseAddr payload behind s).2.map baseAddr = image' at hnew ⊢
  generalize imageAt s.map baseAddr = image at *
  -- in the header, the payload changes nothing
  have hheader : ∀ k < commandsEnd image, image' k = splice image
      (hdrSize (u32 image 0) + before.flatten.length + (entryField (magic64 image) e).1)
      (newEntry (magic64 image) e (commandsEnd image) vmBase) k := by
    intro k hk
    rw [hnew k (by omega), splice_of_not_mem (.inl hk), splice, splice, himage k (by omega)]
  obtain ⟨hmagic, hcs'⟩ := imageCommands_newCommand hcs hfield hheader
  constructor
  case ep => rw [hep, narrow_orgEp, hloader]
  case payload =>
    have hbytes : bytesAt image' (commandsEnd image) payload.length = bytesAt (splice _
        (commandsEnd image) payload) (commandsEnd image) payload.length :=
      bytesAt_congr fun k _ hk => hnew k (by omega)
    rw [hbytes, bytesAt_splice]
  case entry =>
    refine ⟨_, _, hcs', ?_⟩
    rw [magic64, hmagic, ← magic64]
    exact loaderEntry_newCommand hbefore he hafter hbase hfield
  case header =>
    refine ⟨before, after, rfl, fun k hk hout => ?_⟩
    rw [hheader k hk, splice_of_not_mem (by rwa [length_newEntry])]

/-! ### A 32-bit image -/

/-- A thread that begins at `0x2010`. -/
def sampleThread : List UInt8 :=
  leBytes 4 LC_UNIXTHREAD ++ leBytes 4 60 ++ List.replicate 48 0 ++ leBytes 4 0x2010

/-- A segment that maps the start of the file to `0x2000`. -/
def sampleSegment : List UInt8 :=
  leBytes 4 LC_SEGMENT ++ leBytes 4 40 ++ List.replicate 16 0 ++ leBytes 4 0x2000 ++
    leBytes 4 0x1000 ++ leBytes 4 0 ++ leBytes 4 0x1000

/-- An image at `0x1000` with the two commands. -/
def sampleProcess : Vm where
  map :=
    { memory := fun x => (leBytes 4 MH_MAGIC ++ List.replicate 12 0 ++ leBytes 4 2 ++
        leBytes 4 100 ++ List.replicate 4 0 ++ sampleThread ++ sampleSegment).getD
          (x - 0x1000).toNat 0
      protection := fun p => if p = 1 ∨ p = 2 ∨ p = 3 then some ⟨true, false, true⟩ else none
      bounded := fun p hp => if_neg (by omega) }
  currentProc := none
  csFlagsOffset := 0
  calls := []

/-- A kernel that refuses nothing. -/
def openKernel : VmKernel where
  version := 17
  orgVmMapSwitchProtect := false
  answer _ _ := KERN_SUCCESS

theorem injectPayload_relocated_sample :
    Relocated 0x1000 [0x90] [sampleThread, sampleSegment] sampleThread
      (injectPayload openKernel 0x1000 [0x90] (fun _ => 0) sampleProcess).1.ep
      (imageAt sampleProcess.map 0x1000)
      (imageAt (injectPayload openKernel 0x1000 [0x90] (fun _ => 0) sampleProcess).2.map
        0x1000) := by
  have hcs : imageCommands (imageAt sampleProcess.map 0x1000) =
      some ([sampleThread, sampleSegment], []) := by
    decide
  have hfields : ∀ c ∈ [sampleThread, sampleSegment],
      HasFields (magic64 (imageAt sampleProcess.map 0x1000)) c := by
    simp only [List.forall_mem_cons]
    exact ⟨⟨by decide, by decide, by decide⟩, ⟨by decide, by decide, by decide⟩,
      fun c hc => absurd hc List.not_mem_nil⟩
  have hentry : [sampleThread, sampleSegment].filter isEntry = [sampleThread] := by decide
  have hbase : [sampleThread, sampleSegment].filterMap baseVmaddr = [0x2000] := by decide
  exact injectPayload_relocated openKernel sampleProcess 0x1000 [0x90] (fun _ => 0) _ _ _ _ hcs
    hfields hentry hbase
    (injectPayload_succeeds (fun _ _ => rfl) hcs hfields hentry hbase (by decide) (by decide))

end Lilu.UserPatcher
