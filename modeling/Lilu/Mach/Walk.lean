import Lilu.Prelude.Loop
import Lilu.Prelude.Probe
import Lilu.Mach.Header

/-!
# Walks over load commands

Three walks look at the load commands of a header: one takes the symbols' offsets, one looks for a
UUID, and one for the address of `__TEXT`. Each checks that a command's first 8 bytes, and the size
that the command says it has, are in the header. What is then read of the command may have more
bytes than that.

## Main definitions

* `Reads.walk`: the loop over the load commands, and what is done with each of them
* `Reads.processMachHeader`, `Reads.loadUUID`, `Reads.runningText`: the three walks
* `SymbolsInside`, `TextInside`: what is read of a command is in the header

## Main results

* `Reads.run_processMachHeader`, `Reads.run_getUUID`: the walks have the values of the model
* `Reads.within_walk`: where a walk reads
* `walks_inside_iff`: when the walks read nothing behind the header
* `processMachHeader_congr`: then nothing behind the header matters
-/

namespace Lilu.MachInfo

open Lilu.Kext (CString strncmp)

/-- The offsets of the header's bytes. -/
def headerBytes : Set ℕ :=
  {o | o < HeaderSize}

theorem mem_headerBytes {o : ℕ} : o ∈ headerBytes ↔ o < HeaderSize :=
  Iff.rfl

/-! ## Reading a header -/

namespace Reads

open Probe (Within number compare)

variable {S : Set ℕ} {header : Buffer} {o n : ℕ} {name : CString}

/-- The offsets of `n` bytes. -/
def offsets (o n : ℕ) : List ℕ :=
  (List.range n).map fun k => o + k

theorem map_offsets : (offsets o n).map header = bytesAt header o n := by
  rw [offsets, List.map_map]
  rfl

theorem offsets_inside_iff (hn : 0 < n) :
    (∀ x ∈ offsets o n, x ∈ headerBytes) ↔ o + n ≤ HeaderSize := by
  simp only [offsets, List.forall_mem_map, List.mem_range, mem_headerBytes]
  constructor
  · intro h
    -- the last byte is enough
    have hlast := h (n - 1) (by omega)
    omega
  · intro h k hk
    omega

theorem offsets_subset_Ico {a e : ℕ} (hn : 0 < n) :
    (∀ x ∈ offsets o n, x ∈ Set.Ico a e) ↔ a ≤ o ∧ o + n ≤ e := by
  simp only [offsets, List.forall_mem_map, List.mem_range, Set.mem_Ico]
  constructor
  · intro h
    -- the first and the last byte are enough
    have hfirst := h 0 hn
    have hlast := h (n - 1) (by omega)
    omega
  · intro h k hk
    omega

def read32 (o : ℕ) : Probe ℕ ℕ :=
  number (offsets o 4)

def read64 (o : ℕ) : Probe ℕ ℕ :=
  number (offsets o 8)

@[simp] theorem run_read32 : (read32 o).run header = u32 header o := by
  rw [read32, Probe.run_number, map_offsets, u32]

@[simp] theorem run_read64 : (read64 o).run header = u64 header o := by
  rw [read64, Probe.run_number, map_offsets, u64]

@[simp] theorem within_read32 : Within headerBytes header (read32 o) ↔ o + 4 ≤ HeaderSize := by
  rw [read32, Probe.within_number, offsets_inside_iff (by decide)]

theorem within_read32_Ico {a e : ℕ} :
    Within (Set.Ico a e) header (read32 o) ↔ a ≤ o ∧ o + 4 ≤ e := by
  rw [read32, Probe.within_number, offsets_subset_Ico (by decide)]

theorem within_read64_Ico {a e : ℕ} :
    Within (Set.Ico a e) header (read64 o) ↔ a ≤ o ∧ o + 8 ≤ e := by
  rw [read64, Probe.within_number, offsets_subset_Ico (by decide)]

@[simp] theorem within_read64 : Within headerBytes header (read64 o) ↔ o + 8 ≤ HeaderSize := by
  rw [read64, Probe.within_number, offsets_inside_iff (by decide)]

/-- `strncmp` of the name of the segment command at an offset. -/
def compareName (o : ℕ) (name : CString) : Probe ℕ Bool :=
  compare (offsets (o + 8) 16) name

theorem run_compareName (hname : 0 ∉ name) :
    (compareName o name).run header = strncmp (segname header o) name 16 := by
  have hlen : (segname header o).length ≤ 16 := by
    refine (List.takeWhile_sublist _).length_le.trans ?_
    rw [bytesAt, List.length_map, List.length_range]
  rw [compareName, Probe.run_compare hname, map_offsets, strncmp, List.take_of_length_le hlen,
    offsets, List.length_map, List.length_range, segname, ← beq_eq_decide]

end Reads

/-- The name of the segment command at an offset is in the header, as far as it is compared: up to
the first byte that differs. -/
def NameInside (header : Buffer) (o : ℕ) (name : CString) : Prop :=
  ∀ i < 16, i ≤ name.length → bytesAt header (o + 8) i = name.take i → o + 8 + i < HeaderSize

namespace Reads

open Probe (Within)

variable {σ β : Type} {header : Buffer} {o : ℕ} {name : CString}

theorem within_compareName :
    Within headerBytes header (compareName o name) ↔ NameInside header o name := by
  rw [compareName, Reads.offsets, Probe.within_compare_range]
  rfl

/-! ## The walks -/

/-- The loop over the load commands: `body` is what is done with the command at an offset; `fail`
and `finish` are what is returned at an invalid command and behind the last one. -/
def walk (body : σ → ℕ → Probe ℕ (Turn σ β)) (fail finish : σ → β) : ℕ → ℕ → σ → Probe ℕ β
  | 0, _, s => pure (finish s)
  | n + 1, addr, s =>
    if addr % 4 ≠ 0 then pure (fail s)
    else if addr + 8 > HeaderSize then pure (fail s)
    else do
      -- the prefix is in the header; a size of zero stays at the same command
      let cmdsize ← read32 (addr + 4)
      if addr + cmdsize > HeaderSize then pure (fail s)
      else
        match ← body s addr with
        | .leave b => pure b
        | .again s => walk body fail finish n (addr + cmdsize) s

/-- What is done with a command for the symbols. -/
def processCommand (s : Symbols) (o : ℕ) : Probe ℕ (Turn Symbols Symbols) := do
  let cmd ← read32 o
  if cmd = SegmentTypeNative then
    -- the name and the address may be behind the header
    if ← compareName o TEXT then
      let vmaddr ← read64 (o + 24)
      pure (.again { s with disk_text_addr := vmaddr })
    else if ← compareName o LINKEDIT then
      let fileoff ← read64 (o + 40)
      let filesize ← read64 (o + 48)
      pure (.again { s with sym_fileoff := fileoff, sym_size := filesize })
    else pure (.again s)
  else if cmd = LC_SYMTAB then
    -- nothing says that the command has these
    let symoff ← read32 (o + 8)
    let nsyms ← read32 (o + 12)
    let stroff ← read32 (o + 16)
    let strsize ← read32 (o + 20)
    pure (.again { s with
      symboltable_fileoff := symoff
      symboltable_nr_symbols := nsyms
      stringtable_fileoff := stroff
      stringtable_size := strsize })
  else pure (.again s)

/-- `processMachHeader`. -/
def processMachHeader (s : Symbols) : Probe ℕ Symbols := do
  let ncmds ← read32 16
  walk processCommand id id ncmds 32 s

/-- Whether a command is the one with the UUID. -/
def uuidCommand (_ : Unit) (o : ℕ) : Probe ℕ (Turn Unit (Option ℕ)) := do
  let cmd ← read32 o
  if cmd = LC_UUID then pure (.leave (some (o + 8))) else pure (.again ())

/-- `getUUID`: a pointer to the UUID, if there is one. -/
def getUUID : Probe ℕ (Option ℕ) := do
  let ncmds ← read32 16
  walk uuidCommand (fun _ => none) (fun _ => none) ncmds 32 ()

/-- `loadUUID`, with the UUID that it takes. -/
def loadUUID : Probe ℕ (Option (ℕ × ℕ)) := do
  match ← getUUID with
  | none => pure none
  | some p =>
    -- 16 bytes, which the size of the command has not been compared with
    let low ← read64 p
    let high ← read64 (p + 8)
    pure (some (low, high))

/-- The end of the walk of `getRunningAddresses`: at an invalid command, behind the last one, or at
`__TEXT` with its address. -/
inductive TextSearch where
  | invalid
  | missing
  | found (vmaddr : ℕ)
  deriving DecidableEq, Repr

/-- Whether a command is the segment `__TEXT`. -/
def textCommand (_ : Unit) (o : ℕ) : Probe ℕ (Turn Unit TextSearch) := do
  let cmd ← read32 o
  if cmd = SegmentTypeNative then
    if ← compareName o TEXT then
      let vmaddr ← read64 (o + 24)
      pure (.leave (.found vmaddr))
    else pure (.again ())
  else pure (.again ())

/-- The walk of `getRunningAddresses`. -/
def runningText : Probe ℕ TextSearch := do
  let ncmds ← read32 16
  walk textCommand (fun _ => .invalid) (fun _ => .missing) ncmds 32 ()

/-! ## Their values -/

theorem TEXT_terminated : 0 ∉ TEXT := by decide

theorem LINKEDIT_terminated : 0 ∉ LINKEDIT := by decide

theorem run_processCommand (s : Symbols) (o : ℕ) :
    (processCommand s o).run header = .again (MachInfo.processCommand header s o) := by
  simp only [processCommand, Probe.run_bind, run_read32, Probe.run_ite, run_read64, Probe.run_pure,
    run_compareName TEXT_terminated, run_compareName LINKEDIT_terminated, MachInfo.processCommand]
  split_ifs <;> rfl

/-- A walk that never leaves is a fold over the commands. -/
theorem run_walk_again {body : σ → ℕ → Probe ℕ (Turn σ β)} {f : σ → ℕ → σ} {finish : σ → β}
    (hbody : ∀ s o, (body s o).run header = .again (f s o)) (n addr : ℕ) (s : σ) :
    (walk body finish finish n addr s).run header =
      finish ((loadCommands header n addr).foldl f s) := by
  -- Induction on the commands left; a command that does not fit ends both.
  induction n generalizing addr s with
  | zero => rfl
  | succ n ih =>
    rw [walk, loadCommands]
    by_cases haligned : addr % 4 ≠ 0
    · rw [if_pos haligned, if_pos haligned]
      rfl
    rw [if_neg haligned, if_neg haligned]
    by_cases hbegin : addr + 8 > HeaderSize
    · rw [if_pos hbegin, if_pos (.inl hbegin)]
      rfl
    rw [if_neg hbegin, Probe.run_bind, run_read32, Probe.run_ite]
    by_cases hsize : addr + u32 header (addr + 4) > HeaderSize
    · rw [if_pos hsize, if_pos (.inr hsize)]
      rfl
    rw [if_neg hsize, if_neg (not_or.mpr ⟨hbegin, hsize⟩), Probe.run_bind, hbody]
    exact ih _ _

/-- **The symbols' offsets**: the walk reads what the model takes from the commands. -/
theorem run_processMachHeader (s : Symbols) :
    (processMachHeader s).run header = MachInfo.processMachHeader s header := by
  rw [processMachHeader, Probe.run_bind, run_read32, MachInfo.processMachHeader, commands]
  exact run_walk_again run_processCommand _ _ _

/-- A walk for one kind of command finds the first of them. -/
theorem run_walk_find {body : Unit → ℕ → Probe ℕ (Turn Unit β)} {p : ℕ → Bool} {f : ℕ → β} {b : β}
    (hbody : ∀ o, (body () o).run header = if p o then .leave (f o) else .again ()) (n addr : ℕ) :
    (walk body (fun _ => b) (fun _ => b) n addr ()).run header =
      (((loadCommands header n addr).find? p).map f).getD b := by
  -- Induction on the commands left, as for a walk that never leaves.
  induction n generalizing addr with
  | zero => rfl
  | succ n ih =>
    rw [walk, loadCommands]
    by_cases haligned : addr % 4 ≠ 0
    · rw [if_pos haligned, if_pos haligned]
      rfl
    rw [if_neg haligned, if_neg haligned]
    by_cases hbegin : addr + 8 > HeaderSize
    · rw [if_pos hbegin, if_pos (.inl hbegin)]
      rfl
    rw [if_neg hbegin, Probe.run_bind, run_read32, Probe.run_ite]
    by_cases hsize : addr + u32 header (addr + 4) > HeaderSize
    · rw [if_pos hsize, if_pos (.inr hsize)]
      rfl
    rw [if_neg hsize, if_neg (not_or.mpr ⟨hbegin, hsize⟩), Probe.run_bind, hbody, List.find?_cons]
    cases hp : p addr with
    | true => rfl
    | false => exact ih _

/-- Whether a command is the one with the UUID. -/
def isUUID (header : Buffer) (o : ℕ) : Bool :=
  u32 header o = LC_UUID

theorem run_uuidCommand : (uuidCommand () o).run header =
    if isUUID header o then .leave (some (o + 8)) else .again () := by
  simp only [uuidCommand, Probe.run_bind, run_read32, Probe.run_ite, Probe.run_pure, isUUID,
    decide_eq_true_eq]

theorem run_getUUID : getUUID.run header =
    ((commands header).find? (isUUID header)).map (· + 8) := by
  have hwalk := @run_walk_find _ header uuidCommand (isUUID header) (fun o => some (o + 8)) none
    (fun _ => run_uuidCommand) (u32 header 16) 32
  rw [getUUID, Probe.run_bind, run_read32, hwalk, commands]
  cases (loadCommands header (u32 header 16) 32).find? (isUUID header) <;> rfl

/-- **The UUID**: what is loaded is what the model finds. -/
theorem run_loadUUID : loadUUID.run header = MachInfo.getUUID header := by
  have hfind : (commands header).find? (fun o => u32 header o = LC_UUID) =
      (commands header).find? (isUUID header) := rfl
  rw [loadUUID, Probe.run_bind, run_getUUID, MachInfo.getUUID, hfind]
  cases (commands header).find? (isUUID header) with
  | none => rfl
  | some o =>
    simp only [Option.map_some, Probe.run_bind, run_read64, Probe.run_pure, Nat.add_assoc]

/-! ## Where they read -/

/-- The commands up to the first at which a walk leaves. -/
def upTo (leaves : ℕ → Bool) : List ℕ → List ℕ
  | [] => []
  | o :: os => if leaves o then [o] else o :: upTo leaves os

theorem upTo_false (os : List ℕ) : upTo (fun _ => false) os = os := by
  induction os with
  | nil => rfl
  | cons o os ih => rw [upTo, if_neg (by decide), ih]

/-- **Where a walk reads**: its checks read inside of the header, so that it does if and only if
what is done with each command does. -/
theorem within_walk {body : σ → ℕ → Probe ℕ (Turn σ β)} {fail finish : σ → β} {inside : ℕ → Prop}
    {leaves : ℕ → Bool}
    (hinside : ∀ s o, o + 8 ≤ HeaderSize → (Within headerBytes header (body s o) ↔ inside o))
    (hleaves : ∀ s o, (∃ b, (body s o).run header = .leave b) ↔ leaves o) (n addr : ℕ) (s : σ) :
    Within headerBytes header (walk body fail finish n addr s) ↔
      ∀ o ∈ upTo leaves (loadCommands header n addr), inside o := by
  induction n generalizing addr s with
  | zero => exact iff_of_true (Probe.within_pure _) (fun _ h => absurd h List.not_mem_nil)
  | succ n ih =>
    -- where the walk ends, nothing more is read
    have hnone : ∀ b : β, Within headerBytes header (pure b : Probe ℕ β) ↔
        ∀ o ∈ upTo leaves [], inside o := fun b =>
      iff_of_true (Probe.within_pure _) (fun _ h => absurd h List.not_mem_nil)
    rw [walk, loadCommands]
    by_cases haligned : addr % 4 ≠ 0
    · rw [if_pos haligned, if_pos haligned]
      exact hnone _
    rw [if_neg haligned, if_neg haligned]
    by_cases hbegin : addr + 8 > HeaderSize
    · rw [if_pos hbegin, if_pos (.inl hbegin)]
      exact hnone _
    -- the size is in the prefix that was checked
    rw [if_neg hbegin, Probe.within_bind, within_read32, and_iff_right (by omega), run_read32]
    by_cases hsize : addr + u32 header (addr + 4) > HeaderSize
    · rw [if_pos hsize, if_pos (.inr hsize)]
      exact hnone _
    rw [if_neg hsize, if_neg (not_or.mpr ⟨hbegin, hsize⟩), Probe.within_bind,
      hinside s addr (by omega), upTo]
    cases hturn : (body s addr).run header with
    | leave b =>
      -- the command at which the walk leaves is the last that is read
      rw [if_pos ((hleaves s addr).mp ⟨b, hturn⟩), List.forall_mem_singleton]
      exact and_iff_left (Probe.within_pure _)
    | again s' =>
      have hstays : ¬ leaves addr = true := by
        rw [← hleaves s, hturn]
        simp
      rw [if_neg hstays, List.forall_mem_cons]
      exact and_congr_right fun _ => ih _ _

end Reads

/-! ## The three walks -/

section Inside

open Probe (Within)

variable {header header' : Buffer} {o : ℕ} {s : Symbols}

/-- What is read of a command for the symbols is in the header: the address of `__TEXT`, the offset
and the size of `__LINKEDIT`, the name of another segment as far as it is compared, the symbol
table. -/
def SymbolsInside (header : Buffer) (o : ℕ) : Prop :=
  if u32 header o = SegmentTypeNative then
    if strncmp (segname header o) TEXT 16 then o + 32 ≤ HeaderSize
    else if strncmp (segname header o) LINKEDIT 16 then o + 56 ≤ HeaderSize
    else NameInside header o TEXT ∧ NameInside header o LINKEDIT
  else if u32 header o = LC_SYMTAB then o + 24 ≤ HeaderSize
  else True

/-- What is read of a command to find `__TEXT` is in the header. -/
def TextInside (header : Buffer) (o : ℕ) : Prop :=
  if u32 header o = SegmentTypeNative then
    if strncmp (segname header o) TEXT 16 then o + 32 ≤ HeaderSize else NameInside header o TEXT
  else True

/-- Whether a command is the segment `__TEXT`. -/
def isText (header : Buffer) (o : ℕ) : Bool :=
  u32 header o = SegmentTypeNative ∧ strncmp (segname header o) TEXT 16

theorem run_textCommand : (Reads.textCommand () o).run header =
    if isText header o then .leave (.found (u64 header (o + 24))) else .again () := by
  simp only [Reads.textCommand, Probe.run_bind, Reads.run_read32, Probe.run_ite,
    Reads.run_compareName Reads.TEXT_terminated, Reads.run_read64, Probe.run_pure, isText]
  split_ifs with hsegment htext <;> simp_all

/-- A whole name can be compared. -/
theorem nameInside_of_le {name : CString} (h : o + 24 ≤ HeaderSize) : NameInside header o name :=
  fun i hi _ _ => by omega

theorem within_processCommand (ho : o + 8 ≤ HeaderSize) :
    Within headerBytes header (Reads.processCommand s o) ↔ SymbolsInside header o := by
  rw [Reads.processCommand, Probe.within_bind, Reads.within_read32, Reads.run_read32,
    and_iff_right (by omega), SymbolsInside]
  by_cases hsegment : u32 header o = SegmentTypeNative
  · rw [if_pos hsegment, if_pos hsegment, Probe.within_bind, Reads.within_compareName,
      Reads.run_compareName Reads.TEXT_terminated]
    -- a whole name is read before any field behind it
    by_cases htext : strncmp (segname header o) TEXT 16 = true
    · rw [if_pos htext, if_pos htext, Probe.within_bind, Reads.within_read64]
      constructor
      · exact fun h => h.2.1
      · exact fun h => ⟨nameInside_of_le (by omega), h, Probe.within_pure _⟩
    rw [if_neg htext, if_neg htext, Probe.within_bind, Reads.within_compareName,
      Reads.run_compareName Reads.LINKEDIT_terminated]
    by_cases hlinkedit : strncmp (segname header o) LINKEDIT 16 = true
    · rw [if_pos hlinkedit, if_pos hlinkedit]
      simp only [Probe.within_bind, Reads.within_read64, Probe.within_pure, and_true]
      constructor
      · exact fun h => h.2.2.2
      · intro h
        exact ⟨nameInside_of_le (by omega), nameInside_of_le (by omega), by omega, h⟩
    -- another segment has been compared with both names, and no more
    · rw [if_neg hlinkedit, if_neg hlinkedit]
      exact and_congr_right fun _ => and_iff_left (Probe.within_pure _)
  rw [if_neg hsegment, if_neg hsegment]
  by_cases hsymtab : u32 header o = LC_SYMTAB
  · rw [if_pos hsymtab, if_pos hsymtab]
    simp only [Probe.within_bind, Reads.within_read32, Probe.within_pure, and_true]
    omega
  · rw [if_neg hsymtab, if_neg hsymtab]
    exact iff_of_true (Probe.within_pure _) trivial

theorem within_processMachHeader :
    Within headerBytes header (Reads.processMachHeader s) ↔
      ∀ o ∈ commands header, SymbolsInside header o := by
  -- all commands are looked at
  have hnever : ∀ s o, (∃ b, (Reads.processCommand s o).run header = .leave b) ↔ false = true := by
    intro s o
    rw [Reads.run_processCommand]
    simp
  rw [Reads.processMachHeader, Probe.within_bind, Reads.within_read32, Reads.run_read32,
    and_iff_right (by decide), commands, Reads.within_walk
      (fun s o => within_processCommand) hnever, Reads.upTo_false]

theorem within_getUUID : Within headerBytes header Reads.getUUID := by
  have hinside : ∀ (s : Unit) (o : ℕ), o + 8 ≤ HeaderSize →
      (Within headerBytes header (Reads.uuidCommand s o) ↔ True) := by
    intro s o ho
    rw [Reads.uuidCommand, Probe.within_bind, Reads.within_read32, Probe.within_ite]
    exact iff_of_true ⟨by omega, fun _ => Probe.within_pure _, fun _ => Probe.within_pure _⟩ trivial
  have hleaves : ∀ s o, (∃ b, (Reads.uuidCommand s o).run header = .leave b) ↔
      Reads.isUUID header o := by
    rintro ⟨⟩ o
    rw [Reads.run_uuidCommand]
    split_ifs with huuid <;> simp [huuid]
  rw [Reads.getUUID, Probe.within_bind, Reads.within_read32, Reads.within_walk hinside hleaves]
  exact ⟨by decide, fun _ _ => trivial⟩

theorem within_loadUUID : Within headerBytes header Reads.loadUUID ↔
    ∀ o, (commands header).find? (Reads.isUUID header) = some o → o + 24 ≤ HeaderSize := by
  rw [Reads.loadUUID, Probe.within_bind, and_iff_right within_getUUID, Reads.run_getUUID]
  cases (commands header).find? (Reads.isUUID header) with
  | none => exact iff_of_true (Probe.within_pure _) (fun _ h => absurd h (by simp))
  | some o =>
    simp only [Option.map_some, Probe.within_bind, Reads.within_read64, Probe.within_pure, and_true]
    constructor
    · rintro h o' ⟨⟩
      omega
    · intro h
      have hfits := h o rfl
      omega

theorem within_runningText : Within headerBytes header Reads.runningText ↔
    ∀ o ∈ Reads.upTo (isText header) (commands header), TextInside header o := by
  have hinside : ∀ (s : Unit) (o : ℕ), o + 8 ≤ HeaderSize →
      (Within headerBytes header (Reads.textCommand s o) ↔ TextInside header o) := by
    intro s o ho
    rw [Reads.textCommand, Probe.within_bind, Reads.within_read32, Reads.run_read32,
      and_iff_right (by omega), TextInside]
    by_cases hsegment : u32 header o = SegmentTypeNative
    · rw [if_pos hsegment, if_pos hsegment, Probe.within_bind, Reads.within_compareName,
        Reads.run_compareName Reads.TEXT_terminated]
      split_ifs with htext
      · rw [Probe.within_bind, Reads.within_read64]
        constructor
        · exact fun h => h.2.1
        · exact fun h => ⟨nameInside_of_le (by omega), h, Probe.within_pure _⟩
      · exact and_iff_left (Probe.within_pure _)
    · rw [if_neg hsegment, if_neg hsegment]
      exact iff_of_true (Probe.within_pure _) trivial
  have hleaves : ∀ s o, (∃ b, (Reads.textCommand s o).run header = .leave b) ↔
      isText header o := by
    rintro ⟨⟩ o
    rw [run_textCommand]
    split_ifs with htext <;> simp [htext]
  rw [Reads.runningText, Probe.within_bind, Reads.within_read32, Reads.run_read32,
    and_iff_right (by decide), commands, Reads.within_walk hinside hleaves]

/-- **Where the walks read**: each reads nothing behind the header if and only if what it reads of
the commands that it comes to is in the header. What is checked of a command is not enough for that,
but for the search for the UUID. -/
theorem walks_inside_iff :
    (Within headerBytes header (Reads.processMachHeader s) ↔
      ∀ o ∈ commands header, SymbolsInside header o) ∧
    Within headerBytes header Reads.getUUID ∧
    (Within headerBytes header Reads.loadUUID ↔
      ∀ o, (commands header).find? (Reads.isUUID header) = some o → o + 24 ≤ HeaderSize) ∧
    (Within headerBytes header Reads.runningText ↔
      ∀ o ∈ Reads.upTo (isText header) (commands header), TextInside header o) :=
  ⟨within_processMachHeader, within_getUUID, within_loadUUID, within_runningText⟩

/-- Two commands of which the second is a segment that has only its first 8 bytes in the header. -/
def truncated : Buffer := fun k =>
  if k = 16 then 2
  else if k = 36 then 0xD8
  else if k = 37 then 0x1F
  else if k = 8184 then 0x19
  else if k = 8188 then 8
  else 0

/-- Its name is read behind the header. -/
theorem not_walks_inside_truncated : ¬ ∀ (header : Buffer) (s : Symbols),
    Within headerBytes header (Reads.processMachHeader s) ∧
      Within headerBytes header Reads.loadUUID ∧ Within headerBytes header Reads.runningText := by
  intro h
  -- the second command is the last in the header, and its name is behind it
  exact absurd (mem_headerBytes.mp ((h truncated {}).1 8192 (by decide))) (by decide)

/-- Where nothing is read behind the header, nothing there matters. -/
theorem processMachHeader_congr (h : ∀ o ∈ commands header, SymbolsInside header o)
    (hsame : ∀ k < HeaderSize, header' k = header k) :
    processMachHeader s header' = processMachHeader s header := by
  rw [← Reads.run_processMachHeader, ← Reads.run_processMachHeader]
  exact ((within_processMachHeader.mpr h).congr hsame).1

end Inside

end Lilu.MachInfo
