import Lilu.NVRAM.ReadBack

/-!
# Reading sensitive values

Erasing temporaries does not change what reading returns. The option that asks for it is an option
like the others, though: a header that lacks it is not accepted by a reader who sets it, and
writing leaves it out of every header.

## Main definitions

* `ReadsAlike`: reading returns the same with and without `OptSensitive`

## Main results

* `readsAlike_iff`: when it does
-/

namespace Lilu.NVStorage

open Compression

variable {P : Platform} {opts : UInt8} {enckey : Option (List UInt8)} {data : List UInt8}

/-- From the same state, a stored value is read the same with and without `OptSensitive`. -/
def ReadsAlike (P : Platform) (opts : UInt8) (enckey : Option (List UInt8)) (data : List UInt8) :
    Prop :=
  ∀ (A : Allocator) (key : String) (reg : Registry), reg key = some data → ∀ h,
    ∃ r h₁ h₂, Runs (read A P key opts enckey reg) h r h₁ ∧
      Runs (read A P key (opts ||| OptSensitive) enckey reg) h r h₂

/-- What tells the two readers apart does not matter: the value is raw, the option was set all
along, the header has it, or nothing is found anyway. -/
def IgnoresSensitive (P : Platform) (opts : UInt8) (enckey : Option (List UInt8))
    (data : List UInt8) : Prop :=
  has opts OptRaw ∨ has opts OptSensitive ∨ has (headerOpts data) OptSensitive ∨
    openStored P opts enckey data = none

/-! ## Option masks -/

theorem and_or_distrib_left (a b c : UInt8) : a &&& (b ||| c) = a &&& b ||| a &&& c :=
  UInt8.toBitVec_inj.mp (by ext i; simp [Bool.and_or_distrib_left])

theorem or_and_absorb (a b : UInt8) : (a ||| b) &&& a = a := by
  refine UInt8.toBitVec_inj.mp (BitVec.eq_of_getElem_eq fun i hi => ?_)
  simp only [UInt8.toBitVec_and, UInt8.toBitVec_or, BitVec.getElem_and, BitVec.getElem_or]
  cases a.toBitVec[i] <;> cases b.toBitVec[i] <;> rfl

/-- A mask contains a union when it contains both parts. -/
theorem and_or_eq_iff {a b c : UInt8} : a &&& (b ||| c) = b ||| c ↔ a &&& b = b ∧ a &&& c = c := by
  have hpart : ∀ {b c : UInt8}, a &&& (b ||| c) = b ||| c → a &&& b = b := by
    intro b c h
    calc a &&& b = (a &&& (b ||| c)) &&& b := by rw [UInt8.and_assoc, or_and_absorb]
      _ = b := by rw [h, or_and_absorb]
  constructor
  · intro h
    exact ⟨hpart h, hpart (by rwa [UInt8.or_comm c])⟩
  · rintro ⟨hb, hc⟩
    rw [and_or_distrib_left, hb, hc]

/-- A mask has `OptSensitive` when it contains it. -/
theorem has_optSensitive_iff : has opts OptSensitive ↔ opts &&& OptSensitive = OptSensitive := by
  have hbits : ∀ bits : BitVec 8, has (UInt8.ofBitVec bits) OptSensitive ↔
      UInt8.ofBitVec bits &&& OptSensitive = OptSensitive := by
    decide
  exact hbits opts.toBitVec

/-- A mask that has the option stays as it is. -/
theorem or_optSensitive_of_has (h : has opts OptSensitive) : opts ||| OptSensitive = opts := by
  have hbits : ∀ bits : BitVec 8, has (UInt8.ofBitVec bits) OptSensitive →
      UInt8.ofBitVec bits ||| OptSensitive = UInt8.ofBitVec bits := by
    decide
  exact hbits opts.toBitVec h

/-- The other options stay as they are. -/
theorem has_or_optSensitive (opts : UInt8) {opt : UInt8} (hopt : opt &&& OptSensitive = 0) :
    has (opts ||| OptSensitive) opt = has opts opt := by
  rw [has, has, UInt8.and_comm, and_or_distrib_left, hopt, UInt8.or_zero, UInt8.and_comm]

/-- A reader who sets `OptSensitive` accepts the headers that have it, and no others. -/
theorem accepts_or_optSensitive_iff : Accepts (opts ||| OptSensitive) data ↔
    Accepts opts data ∧ has (headerOpts data) OptSensitive := by
  unfold Accepts
  rw [and_or_eq_iff, has_optSensitive_iff]
  simp only [and_assoc]

/-- Writing leaves the option out of the header, so no reader who sets it accepts what was
written. -/
theorem not_accepts_header (opts wopts : UInt8) (rest : List UInt8) :
    ¬ Accepts (opts ||| OptSensitive) (header wopts ++ rest) := by
  intro hacc
  have hhas := (accepts_or_optSensitive_iff.mp hacc).2
  have hopts : headerOpts (header wopts ++ rest) = wopts &&& ~~~OptSensitive := rfl
  rw [hopts, has, UInt8.and_assoc, show ~~~OptSensitive &&& OptSensitive = 0 from rfl] at hhas
  simp at hhas

/-! ## Two readers -/

/-- Masks that accept the same headers read the same. -/
theorem readsAlike_of_accepts (hdata : data ≠ [])
    (hacc : ¬ has opts OptRaw → (Accepts opts data ↔ Accepts (opts ||| OptSensitive) data)) :
    ReadsAlike P opts enckey data := by
  intro A key reg hkey h
  have hraw : has opts OptRaw = has (opts ||| OptSensitive) OptRaw :=
    (has_or_optSensitive opts (by decide)).symm
  have hread : Agree (read A P key opts enckey reg) _ _ := agree_read hkey hdata hraw hacc
  obtain ⟨r, h₁, h₂, hrun₁, hrun₂, -, -⟩ := hread h h rfl
  exact ⟨r, h₁, h₂, hrun₁, hrun₂⟩

/-- An empty value is as good as none. -/
theorem runs_read_nil (A : Allocator) {key : String} {reg : Registry} (hkey : reg key = some [])
    (h : Heap Block) : Runs (read A P key opts enckey reg) h none h := by
  rw [read]
  simp only [hkey, List.length_nil, if_true, runs_pure, and_self]

/-- Where nothing is stored, nothing is read, whether or not memory is refused. -/
theorem runs_read_none (A : Allocator) {key : String} {reg : Registry} (hkey : reg key = some data)
    (hdata : data ≠ []) (hopen : openStored P opts enckey data = none) (h : Heap Block) :
    ∃ h', Runs (read A P key opts enckey reg) h none h' := by
  have hread : Agree (read A P key opts enckey reg) _ _ :=
    agree_read hkey hdata rfl fun _ => Iff.rfl
  obtain ⟨r, h', hrun, hr⟩ := hread.ensures h
  rw [hopen] at hr
  obtain rfl : r = none := hr.elim id And.left
  exact ⟨h', hrun⟩

/-- A reader who sets `OptSensitive` finds nothing behind a header without it. -/
theorem openStored_or_optSensitive (hraw : ¬ has opts OptRaw)
    (hhdr : ¬ has (headerOpts data) OptSensitive) :
    openStored P (opts ||| OptSensitive) enckey data = none := by
  rw [openStored, has_or_optSensitive opts (by decide), if_neg hraw,
    if_neg fun hacc => hhdr (accepts_or_optSensitive_iff.mp hacc).2]
  rfl

theorem readsAlike_of_ignores (hign : IgnoresSensitive P opts enckey data) :
    ReadsAlike P opts enckey data := by
  by_cases hdata : data = []
  · rintro A key reg hkey h
    rw [hdata] at hkey
    exact ⟨none, h, h, runs_read_nil A hkey h, runs_read_nil A hkey h⟩
  rcases hign with hraw | hopts | hhdr | hopen
  · exact readsAlike_of_accepts hdata fun hnot => absurd hraw hnot
  · exact readsAlike_of_accepts hdata fun _ => by rw [or_optSensitive_of_has hopts]
  · exact readsAlike_of_accepts hdata fun _ =>
      (accepts_or_optSensitive_iff.trans (and_iff_left hhdr)).symm
  by_cases hraw : has opts OptRaw
  · exact readsAlike_of_accepts hdata fun hnot => absurd hraw hnot
  by_cases hhdr : has (headerOpts data) OptSensitive
  · exact readsAlike_of_accepts hdata fun _ =>
      (accepts_or_optSensitive_iff.trans (and_iff_left hhdr)).symm
  -- both readers find nothing, for different reasons
  intro A key reg hkey h
  obtain ⟨h₁, hrun₁⟩ := runs_read_none A hkey hdata hopen h
  have hopen' : openStored P (opts ||| OptSensitive) enckey data = none :=
    openStored_or_optSensitive hraw hhdr
  obtain ⟨h₂, hrun₂⟩ := runs_read_none A hkey hdata hopen' h
  exact ⟨none, h₁, h₂, hrun₁, hrun₂⟩

/-- A value that one reader finds is lost to the other. -/
theorem not_readsAlike {bytes : List UInt8} (hopen : openStored P opts enckey data = some bytes)
    (hraw : ¬ has opts OptRaw) (hhdr : ¬ has (headerOpts data) OptSensitive) :
    ¬ ReadsAlike P opts enckey data := by
  intro hsame
  have hdata : data ≠ [] := by
    rintro rfl
    have hacc : ¬ Accepts opts [] := fun hacc => absurd hacc.1 (by decide)
    rw [openStored, if_neg hraw, if_neg hacc] at hopen
    cases hopen
  let reg : Registry := fun _ => some data
  have hkey : reg "" = some data := rfl
  obtain ⟨r, h₁, h₂, hrun₁, hrun₂⟩ := hsame generous "" reg hkey ⟨0, []⟩
  have hr₁ := (ensures_read generous_generous hkey hdata).of_runs hrun₁
  have hr₂ := (ensures_read generous_generous hkey hdata).of_runs hrun₂
  rw [hopen] at hr₁
  rw [openStored_or_optSensitive hraw hhdr] at hr₂
  obtain ⟨buf, hbuf, -⟩ := hr₁
  obtain rfl : r = none := hr₂
  cases hbuf

/-- **`OptSensitive` only matters to the header check**: a stored value is read the same with and
without the option exactly if its header has the option, or the check does not decide. -/
theorem readsAlike_iff : ReadsAlike P opts enckey data ↔ IgnoresSensitive P opts enckey data := by
  refine ⟨fun hsame => ?_, readsAlike_of_ignores⟩
  by_contra hign
  simp only [IgnoresSensitive, not_or] at hign
  obtain ⟨hraw, -, hhdr, hopen⟩ := hign
  obtain ⟨bytes, hbytes⟩ := Option.ne_none_iff_exists'.mp hopen
  exact not_readsAlike hbytes hraw hhdr hsame

/-- **A sensitive value that is lost**: one byte is written with `OptSensitive`, but only found by a
reader who does not set it. -/
theorem not_readsAlike_written :
    (∃ h', Runs (write generous plain "key" [7] OptSensitive none fun _ => none) ⟨0, []⟩
      (true, Function.update (fun _ => none) "key" (some (header OptSensitive ++ [7]))) h') ∧
    openStored plain OptAuto none (header OptSensitive ++ [7]) = some [7] ∧
    openStored plain OptSensitive none (header OptSensitive ++ [7]) = none ∧
    ¬ ReadsAlike plain OptAuto none (header OptSensitive ++ [7]) := by
  have hopen : openStored plain OptAuto none (header OptSensitive ++ [7]) = some [7] := by decide
  exact ⟨⟨_, rfl⟩, hopen, by decide, not_readsAlike hopen (by decide) (by decide)⟩

end Lilu.NVStorage
