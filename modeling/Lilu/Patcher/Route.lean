import Mathlib.Tactic
import Lilu.Patcher.State

/-!
# Routing functions

The route of a function is a jump at its entry. A route that wraps builds a trampoline first: the
instructions that the jump will overwrite, and a jump behind them, which is a route as well. A
function that starts with a jump already was routed before: its jump is redirected, and what it
led to takes the place of the trampoline.

## Main definitions

* `readChain`: the jump that stands at an address
* `Jump`: the three jumps, with their bytes
* `routeFunctionInternal`, `createTrampoline`: a route, and its trampoline
* `eraseCoverageInstPrefix`, `routeMultipleInternal`: the requests of a plugin
* `deinit`: undoing everything
-/

namespace Lilu.Patcher

open Kext (Error CString)

/-! ## Reading code -/

/-- Where the jump at an address leads, and its kind; there the kind is left unset when the bytes
are no jump. -/
def readChain (m : Mem) (entry : Addr) : Addr × Option JumpType :=
  if read 16 m entry = longJumpPrefix then
    let disp := read 32 m (entry + 2)
    -- a long jump has its target right behind it, so that its displacement is zero
    (read 64 m (entry + 6 + disp.signExtend 64), some (if disp ≠ 0 then .Medium else .Long))
  else if read 8 m entry = smallJumpPrefix then
    (entry + 5 + (read 32 m (entry + 1)).signExtend 64, some .Short)
  -- no other jump is known, nor one that was written over in part
  else (0, none)

/-- Whole instructions from an address on, until they have `min` bytes; zero on a decoding
failure. Every instruction has a byte, so that `fuel` turns are enough if `min < fuel`. -/
def instructionsFrom (hde : Decoder) (m : Mem) (min : ℕ) : ℕ → Addr → ℕ → ℕ
  | 0, _, _ => 0
  | fuel + 1, addr, total =>
    match hde.len m addr with
    -- what was counted before is lost, too
    | none => 0
    | some len =>
      if total + len < min then
        instructionsFrom hde m min fuel (addr + BitVec.ofNat 64 len) (total + len)
      else total + len

/-- `Disassembler::quickInstructionSize`. -/
def quickInstructionSize (hde : Decoder) (m : Mem) (addr : Addr) (min : ℕ) : ℕ :=
  instructionsFrom hde m min (min + 1) addr 0

/-! ## Jumps -/

/-- The jump that a route writes. -/
inductive Jump where
  | short
  | medium (addressSlot : Addr)
  | long
  deriving DecidableEq, Repr

/-- An address slot is used when there is one. -/
def Jump.select (absolute : Bool) (addressSlot : Addr) : Jump :=
  if addressSlot ≠ 0 then .medium addressSlot else if absolute then .long else .short

namespace Jump

def type : Jump → JumpType
  | short => .Short
  | medium _ => .Medium
  | long => .Long

def size : Jump → ℕ
  | short => smallJump
  | medium _ => mediumJump
  | long => longJump

/-- The size of the wide store that holds the jump. -/
def width : Jump → ℕ
  | long => 16
  | _ => 8

def opcode : Jump → List UInt8
  | short => bytes smallJumpPrefix
  | _ => bytes longJumpPrefix

/-- The displacement, cut off to 32 bits. -/
def argument (entry dest : Addr) : Jump → BitVec 32
  | short => (dest - (entry + 5)).setWidth 32
  | medium addressSlot => (addressSlot - (entry + 6)).setWidth 32
  | long => 0

/-- Where the target address is stored, if the jump is indirect. -/
def dispAt (entry : Addr) : Jump → Option Addr
  | short => none
  | medium addressSlot => some addressSlot
  | long => some (entry + 6)

/-- The bytes of the jump itself. -/
def code (entry dest : Addr) : Jump → List UInt8
  | long => bytes longJumpPrefix ++ (bytes (0 : BitVec 32) ++ bytes dest)
  | j => j.opcode ++ bytes (j.argument entry dest)

/-- The bytes of the union `patch` with the jump in it. The bytes behind the jump come from the
function, those behind the wide store stay. -/
def union (entry dest : Addr) (m : Mem) (patch : List UInt8) (j : Jump) : List UInt8 :=
  j.code entry dest ++ load m (entry + BitVec.ofNat 64 j.size) (j.width - j.size) ++
    patch.drop j.width

end Jump

/-! ## Small steps -/

/-- The outcome of something outside of the patcher. -/
def ask (env : Env) : PatcherM Bool := do
  let s ← get
  modify fun s => { s with asked := s.asked + 1 }
  pure (env.answer s.asked)

/-- `MachInfo::setKernelWriting`; nobody reads the outcome of setting the protection again. -/
def setKernelWriting (env : Env) : Bool → PatcherM Bool
  | true => do
    let granted ← ask env
    modify fun s => { s with brackets := s.brackets ++ [.lift granted] }
    pure granted
  | false => do
    modify fun s => { s with brackets := s.brackets ++ [.drop] }
    pure true

def setError (e : Error) : PatcherM Unit :=
  modify fun s => { s with code := e }

def clearError : PatcherM Unit :=
  setError .NoError

/-- An address slot is left. -/
def MachInfo.HasSlot (info : MachInfo) : Prop :=
  info.address_slots ≠ 0 ∧ info.address_slots + 8 ≤ info.address_slots_end

instance (info : MachInfo) : Decidable info.HasSlot :=
  inferInstanceAs (Decidable (_ ∧ _))

/-- The image without its next slot. -/
def MachInfo.advance (info : MachInfo) : MachInfo :=
  { info with address_slots := info.address_slots + 8 }

/-- `MachInfo::getAddressSlot` of the image `kinfos[id]`. -/
def getAddressSlot (id : ℕ) : PatcherM Addr := do
  match (← get).kinfos[id]? with
  -- `kinfos` is indexed without a check
  | none => throw .undefined
  | some info =>
    if info.HasSlot then
      modify fun s => { s with kinfos := s.kinfos.set id info.advance }
      pure info.address_slots
    else pure 0

namespace Patch

/-- `Patch::create`, which keeps what is at the address; `none` when there is no memory. -/
def create (env : Env) (address : Addr) (replaced : List UInt8) : PatcherM (Option Patch) := do
  if ← ask env then
    let s ← get
    modify fun s => { s with created := s.created + 1 }
    pure (some ⟨s.created, address, load s.mem address replaced.length, replaced, length_load⟩)
  else pure none

/-- `Patch::deleter`. -/
def deleter : Option Patch → PatcherM Unit
  | none => pure ()
  | some p => modify fun s => { s with deleted := s.deleted ++ [p.number] }

/-- `Patch::All::patch`, through a pointer that may be null. -/
def patch : Option Patch → PatcherM Unit
  -- a null pointer is used
  | none => throw .undefined
  | some p => modify fun s => { s with mem := store s.mem p.address p.replaced }

/-- `Patch::All::restore`. -/
def restore (p : Patch) : PatcherM Unit :=
  modify fun s => { s with mem := store s.mem p.address p.original }

end Patch

/-- `kpatches.push_back`. -/
def pushBack (env : Env) : Option Patch → PatcherM Bool
  | none => pure false
  | some p => do
    if ← ask env then
      modify fun s => { s with kpatches := s.kpatches ++ [p] }
      pure true
    else pure false

/-- `kpatches.erase`, which deletes the element too. -/
def eraseAt (i : ℕ) : PatcherM Unit := do
  match (← get).kpatches[i]? with
  | none => throw .undefined
  | some p =>
    Patch.deleter (some p)
    modify fun s => { s with kpatches := s.kpatches.eraseIdx i }

/-! ## Routes -/

/-- The arguments of a route; `entry` is the source's `from`, `dest` its `to`, and `info` the index
of an image in `kinfos`. -/
structure RouteArgs where
  entry : Addr
  dest : Addr
  buildWrapper : Bool := false
  kernelRoute : Bool := true
  revertible : Bool := true
  jumpType : JumpType := .Auto
  info : Option ℕ := none
  org : Option ℕ := none

/-- How a route ends: with `EINVAL`, or with a jump written and a trampoline returned. -/
inductive Route where
  | failed
  | routed (trampoline : Addr) (jump : Jump)
  deriving DecidableEq, Repr

def EINVAL : Addr := 22

/-- The value that is returned. -/
def Route.value : Route → Addr
  | failed => EINVAL
  | routed trampoline _ => trampoline

def returnEinval : PatcherM Route := do
  modify fun s => { s with failures := s.failures + 1 }
  pure .failed

/-- A displacement that 32 bits hold, with its sign. -/
def Near (diff : Addr) : Prop :=
  (diff.setWidth 32).signExtend 64 = diff

instance (diff : Addr) : Decidable (Near diff) :=
  inferInstanceAs (Decidable (_ = _))

/-- The jump has to be absolute. -/
def RouteArgs.absolute (r : RouteArgs) : Bool :=
  !decide (Near (r.dest - (r.entry + 5))) || r.jumpType = .Long

/-- What stands for the original function, and how its route goes on. -/
structure Original where
  trampoline : Addr
  addressSlot : Addr
  revertible : Bool

/-- `*org` is written if there is an `org`. -/
def State.withOrg (s : State) (org : Option ℕ) (trampoline : Addr) : State :=
  match org with
  | some i => { s with orgs := Function.update s.orgs i trampoline }
  | none => s

/-- A function that was routed before. An unconditional route is obeyed, although it breaks the
previous plugin. -/
def redirect (chain : Addr × Option JumpType) (r : RouteArgs) : PatcherM (Option Original) := do
  let trampoline := if r.buildWrapper then chain.1 else 0
  modify fun s => { s with originals := s.originals ++ (if r.buildWrapper then [chain.1] else []) }
  -- there may be no room for another kind of jump, so that the kinds are not mixed
  if chain.2 = some .Short ∨ r.jumpType = .Short then throw .panic
  else if chain.2 = some .Medium then
    match r.info with
    -- the jump that is there has 6 bytes, and needs another slot
    | none => throw .panic
    | some id =>
      let addressSlot ← getAddressSlot id
      if addressSlot = 0 then throw .panic
      else pure (some ⟨trampoline, addressSlot, false⟩)
  else pure (some ⟨trampoline, 0, false⟩)

/-- The address slot of a route that wraps, or zero. -/
def slotForWrapper (r : RouteArgs) : PatcherM Addr :=
  match r.info with
  | some id =>
    if r.absolute ∧ (r.jumpType = .Auto ∨ r.jumpType = .Long) then getAddressSlot id else pure 0
  | none => pure 0

/-- What a route does before it writes `*org`: the target of an earlier route is found, or a
trampoline is built by `create`. `none` stands for `EINVAL`. -/
def original (create : Addr → ℕ → PatcherM Addr) (r : RouteArgs) : PatcherM (Option Original) := do
  let chain := readChain (← get).mem r.entry
  if chain.1 ≠ 0 then redirect chain r
  else if r.buildWrapper then
    let addressSlot ← slotForWrapper r
    let min :=
      if r.absolute then (if addressSlot ≠ 0 then mediumJump else longJump) else smallJump
    let trampoline ← create r.entry min
    -- the slot is not given back
    if trampoline = 0 then pure none
    else pure (some ⟨trampoline, addressSlot, r.revertible⟩)
  else pure (some ⟨0, 0, r.revertible⟩)

/-- The atomic store of the first bytes of the union. -/
def storeWide (entry : Addr) (width : ℕ) : PatcherM Unit :=
  modify fun s => { s with mem := store s.mem entry (s.patch.take width) }

/-- The bytes at the entry of a relative or a slotted jump. -/
def writeEntry (entry : Addr) (opcode argument : Option Patch) : PatcherM Unit :=
  -- an aligned entry is never seen in part
  if entry &&& 7 = 0 then storeWide entry 8
  else do
    Patch.patch opcode
    Patch.patch argument

/-- The jump is written, with a wide store where the entry is aligned. -/
def writeJump (entry : Addr) (jump : Jump) (opcode argument disp : Option Patch) :
    PatcherM Unit :=
  match jump with
  | .short => writeEntry entry opcode argument
  | .medium _ => do
    Patch.patch disp
    writeEntry entry opcode argument
  | .long =>
    if entry &&& 15 = 0 then storeWide entry 16
    else do
      Patch.patch disp
      Patch.patch opcode
      Patch.patch argument

/-- `kpatches.erase` of a patch that was stored. Its index is what `push_back` has returned, which
is `true`. -/
def eraseStored (idx : Bool) : PatcherM Unit :=
  if idx then eraseAt 1 else pure ()

/-- The patches are kept for later removal, or those that could be stored are erased again. -/
def keepPatches (env : Env) (opcode argument disp : Option Patch) : PatcherM Bool := do
  let oidx ← pushBack env opcode
  let aidx ← pushBack env argument
  let didx ← pushBack env disp
  -- all that there are have to be stored
  if oidx && aidx && (disp.isNone || didx) then pure true
  else
    eraseStored oidx
    eraseStored aidx
    eraseStored didx
    modify fun s => { s with lost := s.lost + 1 }
    pure false

/-- The patch objects of a jump, in the order of their creation. A relative jump has two. -/
def createPatches (env : Env) (entry dest : Addr) (jump : Jump) :
    PatcherM (Option Patch × Option Patch × Option Patch) := do
  let opcode ← Patch.create env entry jump.opcode
  let argument ← Patch.create env (entry + BitVec.ofNat 64 jump.opcode.length)
    (bytes (jump.argument entry dest))
  match jump.dispAt entry with
  | some address =>
    let disp ← Patch.create env address (bytes dest)
    pure (opcode, argument, disp)
  | none => pure (opcode, argument, none)

def deletePatches (opcode argument disp : Option Patch) : PatcherM Unit := do
  Patch.deleter opcode
  Patch.deleter argument
  Patch.deleter disp

/-- An error exit after the patch objects were created. -/
def giveUp (e : Error) (opcode argument disp : Option Patch) : PatcherM Route := do
  setError e
  deletePatches opcode argument disp
  returnEinval

/-- The patches of a route in the kernel, once they are written, are kept if it can be undone. -/
def afterWrite (env : Env) (kernelRoute revertible : Bool) (opcode argument disp : Option Patch) :
    PatcherM Bool :=
  if kernelRoute then do
    let _ ← setKernelWriting env false
    if revertible then keepPatches env opcode argument disp else pure false
  else pure false

/-- What a route does when it may write. -/
def commit (env : Env) (r : RouteArgs) (o : Original) (jump : Jump)
    (opcode argument disp : Option Patch) : PatcherM Route := do
  writeJump r.entry jump opcode argument disp
  let kept ← afterWrite env r.kernelRoute o.revertible opcode argument disp
  if kept then pure (.routed o.trampoline jump)
  else
    deletePatches opcode argument disp
    pure (.routed o.trampoline jump)

/-- The write protection is lifted for a route in the kernel. -/
def mayWrite (env : Env) (kernelRoute : Bool) : PatcherM Bool :=
  if kernelRoute then setKernelWriting env true else pure true

/-- What a route does once it has stored `*org`. -/
def install (env : Env) (r : RouteArgs) (o : Original) : PatcherM Route := do
  -- a route that was redirected uses a slot also for a target that is near
  let jump := Jump.select r.absolute o.addressSlot
  modify fun s => { s with patch := jump.union r.entry r.dest s.mem s.patch }
  let (opcode, argument, disp) ← createPatches env r.entry r.dest jump
  -- a slotted jump to a near target does not ask for its third object
  if opcode.isNone || argument.isNone || (r.absolute && disp.isNone) then
    giveUp .MemoryIssue opcode argument disp
  else
    let granted ← mayWrite env r.kernelRoute
    if granted then commit env r o jump opcode argument disp
    else giveUp .MemoryProtection opcode argument disp

/-- A route that builds trampolines by `create`. -/
def routeWith (create : Addr → ℕ → PatcherM Addr) (env : Env) (r : RouteArgs) :
    PatcherM Route := do
  if r.jumpType = .Short ∧ ¬ Near (r.dest - (r.entry + 5)) then
    setError .MemoryIssue
    returnEinval
  else
    match ← original create r with
    | none => returnEinval
    | some o =>
      modify fun s => s.withOrg r.org o.trampoline
      install env r o

/-- The route from behind the copied instructions to the rest of the function. -/
def backRoute (prologue func : Addr) (off : ℕ) : RouteArgs where
  entry := prologue + BitVec.ofNat 64 off
  dest := func + BitVec.ofNat 64 off
  revertible := false

/-- The offset behind the trampoline for `off` copied bytes. -/
def State.used (s : State) (opnum off : ℕ) : ℕ :=
  (s.tempExecutableMemoryOff + (off + longJump + opnum)) % 2 ^ 64

/-- `createTrampoline`. The jump behind the copied instructions wraps nothing, so that its route
builds no trampoline. -/
def createTrampoline (env : Env) (opcodes : List UInt8) (func : Addr) (min : ℕ) :
    PatcherM Addr := do
  if ← setKernelWriting env true then
    let s ← get
    let off := quickInstructionSize env.hde s.mem func min
    if off = 0 ∨ pageSize - longJump < off then
      let _ ← setKernelWriting env false
      setError .DisasmFailure
      pure 0
    else
      let tempDataPtr := env.tempExecutableMemory + BitVec.ofNat 64 s.tempExecutableMemoryOff
      let used := s.used opcodes.length off
      -- the offset moves before the room is checked
      modify fun s => { s with tempExecutableMemoryOff := used }
      if tempExecutableMemorySize ≤ used then
        let _ ← setKernelWriting env false
        setError .DisasmFailure
        pure 0
      else
        let prologue := tempDataPtr + BitVec.ofNat 64 opcodes.length
        modify fun s => { s with mem := store s.mem tempDataPtr opcodes }
        -- the instructions are copied as they are, relative operands included
        modify fun s => { s with mem := store s.mem prologue (load s.mem func off) }
        let _ ← setKernelWriting env false
        clearError
        let _ ← routeWith (fun _ _ => pure 0) env (backRoute prologue func off)
        -- the outcome of the route is not looked at, only the error that it sets
        if (← get).code = .NoError then
          modify fun s => { s with originals := s.originals ++ [tempDataPtr] }
          pure tempDataPtr
        else pure 0
  else
    setError .MemoryProtection
    pure 0

/-- `routeFunctionInternal`. -/
def routeFunctionInternal (env : Env) (r : RouteArgs) : PatcherM Route :=
  routeWith (createTrampoline env []) env r

/-! ## Requests -/

/-- `inc qword ptr [rip + disp32]`, without the displacement. -/
def incInstPrefix : List UInt8 := [0x48, 0xFF, 0x05]

def incInstSize : ℕ := 7

def nop : UInt8 := 0x90

/-- An instruction of the size and with the first bytes of `inc`. -/
def IsInc (m : Mem) (addr : Addr) (instSize : ℕ) : Prop :=
  instSize = incInstSize ∧ load m addr 3 = incInstPrefix

instance (m : Mem) (addr : Addr) (instSize : ℕ) : Decidable (IsInc m addr instSize) :=
  inferInstanceAs (Decidable (_ ∧ _))

/-- An `inc` is overwritten if it may be written. -/
def eraseInst (env : Env) (addr : Addr) (instSize : ℕ) : PatcherM Unit := do
  if IsInc (← get).mem addr instSize then
    if ← setKernelWriting env true then
      modify fun s => { s with mem := store s.mem addr (List.replicate incInstSize nop) }
      let _ ← setKernelWriting env false
    else pure ()
  else pure ()

/-- The loop of `eraseCoverageInstPrefix`, with what is left of `count`, the address and
`totalInstSize`. -/
def eraseFrom (env : Env) (limit : ℤ) : ℕ → Addr → ℤ → PatcherM Unit
  | 0, _, _ => pure ()
  | count + 1, addr, totalInstSize => do
    let instSize := quickInstructionSize env.hde (← get).mem addr 1
    if instSize = 0 then pure ()
    else
      eraseInst env addr instSize
      -- a limit of zero is none
      if 0 < limit ∧ limit ≤ totalInstSize + instSize then pure ()
      else eraseFrom env limit count (addr + BitVec.ofNat 64 instSize) (totalInstSize + instSize)

/-- `eraseCoverageInstPrefix`. -/
def eraseCoverageInstPrefix (env : Env) (addr : Addr) (count : ℕ) (limit : ℤ) : PatcherM Unit :=
  eraseFrom env limit count addr 0

/-- A request to route a function; `entry` is the source's `from`, and `dest` its `to`. -/
structure RouteRequest where
  symbol : Option CString
  entry : Addr := 0
  dest : Addr
  org : Option ℕ := none

/-- `solveSymbol`. -/
def solveSymbol (env : Env) (id : ℕ) (symbol : CString) : PatcherM Addr := do
  let addr := if id < (← get).kinfos.length then env.solve id symbol else 0
  if addr ≠ 0 then return addr
  setError .NoSymbolFound
  pure 0

/-- `solveSymbol` in a range, which panics on an address outside. -/
def solveSymbolIn (env : Env) (id : ℕ) (symbol : CString) (start size : Addr) :
    PatcherM Addr := do
  let addr ← solveSymbol env id symbol
  if addr ≠ 0 ∧ ¬ (start ≤ addr ∧ addr < start + size) then
    setError .InvalidSymbolFound
    throw .panic
  pure addr

/-- The first loop of `routeMultipleInternal`: the requests with their addresses, and whether
errors were found; `none` when it returns false. -/
def resolveRequests (env : Env) (id : ℕ) (start size : Addr) (force : Bool) :
    List RouteRequest → PatcherM (Option (List RouteRequest × Bool))
  | [] => pure (some ([], false))
  | request :: requests => do
    match request.symbol with
    | none =>
      let rest ← resolveRequests env id start size force requests
      pure (rest.map fun p => (request :: p.1, p.2))
    | some symbol =>
      let entry ←
        if start ≠ 0 ∨ size ≠ 0 then solveSymbolIn env id symbol start size
        else solveSymbol env id symbol
      if entry = 0 then
        clearError
        -- without `force` the first symbol that is not found ends the call
        if !force then return none
      let rest ← resolveRequests env id start size force requests
      pure (rest.map fun p => ({ request with entry } :: p.1, entry = 0 || p.2))

/-- The route of a request, and whether it counts as a success: a wrapped one returns its
trampoline, one without a wrapper returns zero. -/
def routeRequest (env : Env) (id : ℕ) (kernelRoute : Bool) (jump : JumpType)
    (request : RouteRequest) : PatcherM Bool := do
  -- five instructions at most, also where they are those of a jump
  if request.dest ≠ 0 then eraseCoverageInstPrefix env request.entry 5 longJump
  if (← get).kinfos.length ≤ id then throw .undefined
  let wrapper ← routeFunctionInternal env
    { entry := request.entry, dest := request.dest, buildWrapper := request.org.isSome, kernelRoute,
      revertible := true, jumpType := jump, info := some id, org := request.org }
  pure (if request.org.isSome then wrapper.value ≠ 0 else wrapper.value = 0)

/-- The second loop of `routeMultipleInternal`. -/
def routeRequests (env : Env) (id : ℕ) (kernelRoute force : Bool) (jump : JumpType) :
    List RouteRequest → Bool → PatcherM Bool
  | [], errorsFound => pure !errorsFound
  | request :: requests, errorsFound => do
    if request.entry = 0 then routeRequests env id kernelRoute force jump requests errorsFound
    else if ← routeRequest env id kernelRoute jump request then
      routeRequests env id kernelRoute force jump requests errorsFound
    else
      clearError
      -- what was routed before stays so
      if force then routeRequests env id kernelRoute force jump requests true else pure false

/-- `routeMultipleInternal`, with the requests as it leaves them. -/
def routeMultipleInternal (env : Env) (id : ℕ) (requests : List RouteRequest) (start size : Addr)
    (kernelRoute force : Bool) (jump : JumpType) : PatcherM (Bool × List RouteRequest) := do
  match ← resolveRequests env id start size force requests with
  | none => pure (false, requests)
  | some (resolved, errorsFound) =>
    let done ← routeRequests env id kernelRoute force jump resolved errorsFound
    pure (done, resolved)

/-! ## Undoing -/

/-- `deinit`. -/
def deinit (env : Env) : PatcherM Unit := do
  let s ← get
  if 0 < s.kinfos.length then
    if ← setKernelWriting env true then
      -- in the order in which they were stored
      s.kpatches.forM Patch.restore
      let _ ← setKernelWriting env false
  s.kpatches.forM fun p => Patch.deleter (some p)
  modify fun s => { s with kpatches := [], kinfos := [] }

end Lilu.Patcher
