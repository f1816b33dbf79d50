import Lilu.Mach.Header
import Lilu.User.ProcessMap

/-!
# The header of a process' image

The image of a process begins with a Mach-O header: its magic tells 32-bit and 64-bit images apart,
`ncmds` and `sizeofcmds` are the number and the size of the load commands behind it, and each
command begins with its kind and its own size.

## Main definitions

* `imageAt`: the bytes of an image
* `splitCommands`, `imageCommands`: the load commands, if there are as many as `ncmds` says in the
  bytes that `sizeofcmds` says they have

## Main results

* `splitCommands_append`: one more command behind the others
* `splitCommands_iff`: the commands are the bytes
-/

namespace Lilu.UserPatcher

open Lilu.MachInfo (Buffer bytesAt u32 u64)

def MH_MAGIC : ℕ := 0xFEEDFACE
def MH_MAGIC_64 : ℕ := 0xFEEDFACF

def LC_SEGMENT : ℕ := 0x1
def LC_UNIXTHREAD : ℕ := 0x5
def LC_SEGMENT_64 : ℕ := 0x19
def LC_MAIN : ℕ := 0x80000028

/-- The size of `mach_header` and `mach_header_64`. -/
def hdrSize (magic : ℕ) : ℕ :=
  if magic = MH_MAGIC then 28 else 32

theorem header_le (magic : ℕ) : 28 ≤ hdrSize magic ∧ hdrSize magic ≤ 32 := by
  rw [hdrSize]
  split_ifs <;> omega

/-- The bytes of the image at an address. -/
def imageAt (m : ProcessMap) (baseAddr : VmAddress) : Buffer :=
  fun k => m.memory (baseAddr + BitVec.ofNat 64 k)

/-- The size that a command says it has. -/
def cmdsize (bs : List UInt8) : ℕ :=
  leNat ((bs.drop 4).take 4)

/-- The commands that some bytes begin with, and the bytes behind them. -/
def splitCommands : ℕ → List UInt8 → Option (List (List UInt8) × List UInt8)
  | 0, bs => some ([], bs)
  | n + 1, bs =>
    if 8 ≤ cmdsize bs ∧ cmdsize bs ≤ bs.length then
      (splitCommands n (bs.drop (cmdsize bs))).map fun (cs, behind) =>
        (bs.take (cmdsize bs) :: cs, behind)
    else none

/-- The load commands of an image, and the bytes that `sizeofcmds` leaves behind them. -/
def imageCommands (image : Buffer) : Option (List (List UInt8) × List UInt8) :=
  if u32 image 0 = MH_MAGIC_64 ∨ u32 image 0 = MH_MAGIC then
    splitCommands (u32 image 16) (bytesAt image (hdrSize (u32 image 0)) (u32 image 20))
  else none

section Commands

variable {m m' : ProcessMap} {baseAddr : VmAddress} {image : Buffer} {bs c : List UInt8}
  {cs : List (List UInt8)} {n o k : ℕ}

theorem bytesAt_imageAt : bytesAt (imageAt m baseAddr) o n =
    load m.memory (baseAddr + BitVec.ofNat 64 o) n := by
  refine List.map_congr_left fun k _ => ?_
  rw [imageAt, BitVec.ofNat_add, BitVec.add_assoc]

@[simp] theorem length_bytesAt : (bytesAt image o n).length = n := by
  rw [bytesAt, List.length_map, List.length_range]

theorem getElem?_bytesAt (h : k < n) : (bytesAt image o n)[k]? = some (image (o + k)) := by
  simp [bytesAt, h]

theorem bytesAt_add : bytesAt image o (n + k) = bytesAt image o n ++ bytesAt image (o + n) k := by
  rw [bytesAt, List.range_add, List.map_append, List.map_map]
  refine congrArg (bytesAt image o n ++ ·) (List.map_congr_left fun i _ => ?_)
  rw [Function.comp_apply, Nat.add_assoc]

/-- A command has room for its own kind and size. -/
theorem cmdsize_take (h : 8 ≤ n) : cmdsize (bs.take n) = cmdsize bs := by
  rw [cmdsize, cmdsize, List.drop_take, List.take_take, Nat.min_eq_left (by omega)]

theorem cmdsize_append (h : 8 ≤ bs.length) : cmdsize (bs ++ c) = cmdsize bs := by
  rw [← cmdsize_take le_rfl, List.take_append_of_le_length h, cmdsize_take le_rfl]

/-- **One more command** behind the others. -/
theorem splitCommands_append (h : splitCommands n bs = some (cs, [])) (hc : cmdsize c = c.length)
    (hlen : 8 ≤ c.length) : splitCommands (n + 1) (bs ++ c) = some (cs ++ [c], []) := by
  induction n generalizing bs cs with
  | zero =>
    rw [splitCommands, Option.some.injEq, Prod.mk.injEq] at h
    obtain ⟨rfl, rfl⟩ := h
    rw [List.nil_append, splitCommands, if_pos ⟨by omega, by omega⟩, hc, List.drop_length,
      splitCommands, List.take_length]
    rfl
  | succ n ih =>
    rw [splitCommands] at h
    split_ifs at h with hsize
    obtain ⟨⟨cs', behind⟩, hrest, heq⟩ := Option.map_eq_some_iff.mp h
    obtain ⟨rfl, rfl⟩ := Prod.mk.inj heq
    have happend := cmdsize_append (c := c) (hsize.1.trans hsize.2)
    have hle : cmdsize bs ≤ (bs ++ c).length := by
      rw [List.length_append]
      omega
    rw [splitCommands, happend, if_pos ⟨hsize.1, hle⟩, List.drop_append_of_le_length hsize.2,
      List.take_append_of_le_length hsize.2, ih hrest]
    rfl

/-- **The commands are the bytes**: with what is behind them, each with room for its own kind and
size. -/
theorem splitCommands_iff {behind : List UInt8} : splitCommands n bs = some (cs, behind) ↔
    cs.flatten ++ behind = bs ∧ cs.length = n ∧
      ∀ c ∈ cs, cmdsize c = c.length ∧ 8 ≤ c.length := by
  induction n generalizing bs cs with
  | zero =>
    rw [splitCommands, Option.some.injEq, Prod.mk.injEq]
    constructor
    · rintro ⟨rfl, rfl⟩
      exact ⟨rfl, rfl, fun c hc => absurd hc List.not_mem_nil⟩
    · rintro ⟨hflat, hlen, -⟩
      obtain rfl := List.length_eq_zero_iff.mp hlen
      exact ⟨rfl, hflat.symm⟩
  | succ n ih =>
    rw [splitCommands]
    constructor
    · intro h
      split_ifs at h with hsize
      obtain ⟨⟨cs', behind'⟩, hrest, heq⟩ := Option.map_eq_some_iff.mp h
      obtain ⟨rfl, rfl⟩ := Prod.mk.inj heq
      obtain ⟨hflat, hlen, hall⟩ := ih.mp hrest
      refine ⟨?_, congrArg (· + 1) hlen, ?_⟩
      · rw [List.flatten_cons, List.append_assoc, hflat, List.take_append_drop]
      · have hhead : (bs.take (cmdsize bs)).length = cmdsize bs := by
          rw [List.length_take, Nat.min_eq_left hsize.2]
        rw [List.forall_mem_cons, hhead, cmdsize_take hsize.1]
        exact ⟨⟨rfl, hsize.1⟩, hall⟩
    · rintro ⟨rfl, hlen, hall⟩
      cases cs with
      | nil => exact absurd hlen (Nat.succ_ne_zero n).symm
      | cons c cs =>
        obtain ⟨⟨hc, hc8⟩, hall⟩ := List.forall_mem_cons.mp hall
        have hsize : cmdsize ((c :: cs).flatten ++ behind) = c.length := by
          rw [List.flatten_cons, List.append_assoc, cmdsize_append hc8, hc]
        have hle : c.length ≤ ((c :: cs).flatten ++ behind).length := by
          rw [List.flatten_cons, List.append_assoc, List.length_append]
          omega
        rw [hsize, if_pos ⟨hc8, hle⟩, List.flatten_cons, List.append_assoc, List.drop_left,
          List.take_left, ih.mpr ⟨rfl, Nat.succ.inj hlen, hall⟩]
        rfl

end Commands

end Lilu.UserPatcher
