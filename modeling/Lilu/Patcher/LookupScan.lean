import Lilu.Prelude.Occurrence
import Lilu.Patcher.Lookup

/-!
# Lookup patches against the reference scan

The reference scan looks at every place at which a patch fits in the range. The loops look at other
places: they stop before the last one, and if a sum or a difference wraps, or the write protection
is not lifted, at places that have nothing to do with the range. What is rewritten is never
restored, so that this shows if and only if something is found at the places that only one of the
two looks at.

## Main definitions

* `fits`, `looked`: how many places a patch fits at, and how many the call looks at
* `referenceScan`: what should be left
* `QuietRest`: nothing is rewritten at the places that only one of the two looks at

## Main results

* `scanFrom_eq_iff`: a scan that leaves the memory as it is has rewritten nothing
* `applyLookupPatch_mem`: what is left
* `applyLookupPatch_mem_iff`: when it is what should be left
* `looked_eq`: ordinarily, it is only the last place that is not looked at
-/

namespace Lilu.Patcher

open Lilu.Probe (span span_add)

/-! ## A rewrite is not restored -/

section Permanent

variable {patch : LookupPatch} {mem : Mem} {a q x : Addr} {c r r' : List UInt8} {b b' : UInt8}

/-- A rewrite keeps the bytes in which the patch changes nothing. -/
theorem store_keeps (hfind : patch.find = c ++ b :: r) (hreplace : patch.replace = c ++ b' :: r')
    (hat : found patch mem q = true) (hx : (x - q).toNat < c.length) :
    store mem q patch.replace x = mem x := by
  have hbytes : load mem q patch.size = patch.find := of_decide_eq_true hat
  have hsize : c.length < patch.size := by
    rw [← patch.length_find, hfind]
    simp
  have haddr : q + BitVec.ofNat 64 (x - q).toNat = x := by
    rw [BitVec.ofNat_toNat, BitVec.setWidth_eq, BitVec.add_comm, BitVec.sub_add_cancel]
  have hget := congrArg (·[(x - q).toNat]?) hbytes
  simp only [getElem?_load (hx.trans hsize), haddr, hfind, List.getElem?_append_left hx] at hget
  rw [store, hreplace, List.getElem?_append_left hx, ← hget]
  rfl

/-- Where a rewrite changes a byte first, it has the patch's byte, and had another. -/
theorem store_differs (hfind : patch.find = c ++ b :: r) (hreplace : patch.replace = c ++ b' :: r')
    (hat : found patch mem q = true) :
    mem (q + BitVec.ofNat 64 c.length) = b ∧
      store mem q patch.replace (q + BitVec.ofNat 64 c.length) = b' := by
  have hbytes : load mem q patch.size = patch.find := of_decide_eq_true hat
  have hsize : c.length < patch.size := by
    rw [← patch.length_find, hfind]
    simp
  have hsub : (q + BitVec.ofNat 64 c.length - q).toNat = c.length := by
    rw [BitVec.add_comm, BitVec.add_sub_cancel, BitVec.toNat_ofNat]
    exact Nat.mod_eq_of_lt (hsize.trans patch.size_lt)
  have hget := congrArg (·[c.length]?) hbytes
  simp only [getElem?_load hsize, hfind] at hget
  refine ⟨by simpa using hget, ?_⟩
  rw [store, hsub, hreplace]
  simp

/-- **What is rewritten is not restored**: a scan that leaves the memory as it is has rewritten
nothing. -/
theorem scanFrom_eq_iff (hne : patch.find ≠ patch.replace) {n : ℕ} (hfit : n + patch.size ≤ 2 ^ 64)
    {s : Mem × List Addr} :
    (scanFrom patch (span a n) s).1 = s.1 ↔ (scanFrom patch (span a n) s).2 = s.2 := by
  obtain ⟨c, b, b', r, r', hbb, hfind, hreplace⟩ :
      ∃ c b b' r r', b ≠ b' ∧ patch.find = c ++ b :: r ∧ patch.replace = c ++ b' :: r' := by
    have hlen : patch.find.length = patch.replace.length :=
      patch.length_find.trans patch.length_replace.symm
    rcases prefix_or_differ patch.find patch.replace with h | ⟨-, hlt⟩ | h
    · exact absurd (h.eq_of_length hlen) hne
    · omega
    · exact h
  rcases sweep_cases (more patch) (found patch) (fun mem a => store mem a patch.replace) (span a n) s
    with hsame | ⟨qs, p, qs', hspan, hat, hsweep⟩
  · rw [scanFrom, hsame]
    exact ⟨fun _ => rfl, fun _ => rfl⟩
  -- the first place that is rewritten keeps its first byte that was changed
  have hplace : ∀ i q, (span a n)[i]? = some q → i < n ∧ q = a + BitVec.ofNat 64 i := by
    intro i q hq
    obtain ⟨hi, hget⟩ := List.getElem?_eq_some_iff.mp hq
    simp only [span, List.length_map, List.length_range] at hi
    refine ⟨hi, ?_⟩
    rw [← hget]
    simp [span]
  obtain ⟨-, hp⟩ := hplace qs.length p (by rw [hspan]; simp)
  obtain ⟨hbefore, hafter⟩ := store_differs hfind hreplace hat
  have hkept : (scanFrom patch (span a n) s).1 (p + BitVec.ofNat 64 c.length) = b' := by
    rw [scanFrom, hsweep]
    refine sweep_invariant (fun m : Mem => m (p + BitVec.ofNat 64 c.length) = b') ?_ hafter
    intro m q hq hm hqat
    obtain ⟨k, hk⟩ := List.mem_iff_getElem?.mp hq
    obtain ⟨hlt, hq⟩ := hplace (qs.length + (k + 1)) q (by
      rw [hspan, List.getElem?_append_right (Nat.le_add_right _ _), Nat.add_sub_cancel_left]
      exact hk)
    by_cases hx : (p + BitVec.ofNat 64 c.length - q).toNat < c.length
    · exact (store_keeps hfind hreplace hqat hx).trans hm
    · -- a place behind reaches this byte with the part that does not change, or not at all
      have hnot : p + BitVec.ofNat 64 c.length ∉ block q patch.replace.length := by
        rw [mem_block, patch.length_replace]
        intro hin
        have haddr : q + BitVec.ofNat 64 (p + BitVec.ofNat 64 c.length - q).toNat =
            p + BitVec.ofNat 64 c.length := by
          rw [BitVec.ofNat_toNat, BitVec.setWidth_eq, BitVec.add_comm, BitVec.sub_add_cancel]
        generalize (p + BitVec.ofNat 64 c.length - q).toNat = i at hx hin haddr
        rw [hp, hq, BitVec.add_assoc, BitVec.add_assoc, ← BitVec.ofNat_add, ← BitVec.ofNat_add,
          BitVec.add_right_inj] at haddr
        have hnat := congrArg BitVec.toNat haddr
        rw [BitVec.toNat_ofNat, BitVec.toNat_ofNat, Nat.mod_eq_of_lt (by omega),
          Nat.mod_eq_of_lt (by omega)] at hnat
        omega
      exact (store_of_notMem hnot).trans hm
  constructor
  · intro h
    rw [h, hbefore] at hkept
    exact absurd hkept hbb
  · intro h
    rw [scanFrom, hsweep] at h
    have hlog := @prefix_sweep _ _ (more patch) (found patch)
      (fun mem a => store mem a patch.replace) qs' (store s.1 p patch.replace, s.2 ++ [p])
    rw [h] at hlog
    have := hlog.length_le
    simp at this

end Permanent

/-! ## The reference scan -/

section Reference

variable (env : LookupEnv) (patch : LookupPatch) (startingAddress maxSize : Addr)

/-- Where the range begins. -/
def rangeStart : Addr :=
  firstAddress startingAddress (imageOf patch env)

/-- Where the range ends: with the image, or with the window if there is one. -/
def rangeEnd : ℕ :=
  let imageEnd := (imageOf patch env).1.toNat + (imageOf patch env).2.toNat
  if 0 < maxSize then min imageEnd (startingAddress.toNat + maxSize.toNat) else imageEnd

/-- At how many places of the range the patch fits. -/
def fits : ℕ :=
  rangeEnd env patch startingAddress maxSize + 1 -
    ((rangeStart env patch startingAddress).toNat + patch.size)

/-- What should be left: every place at which the patch fits is looked at. -/
def referenceScan (mem : Mem) : Mem :=
  (scanFrom patch (span (rangeStart env patch startingAddress)
    (fits env patch startingAddress maxSize)) (mem, [])).1

/-- How many places are looked at. -/
def looked : ℕ :=
  if env.lifts then
    (endingAddress patch startingAddress maxSize (imageOf patch env)).toNat -
      (rangeStart env patch startingAddress).toNat
  else 0

/-- Nothing is rewritten at the places that only one of the two scans looks at, behind those that
both do. -/
def QuietRest (mem : Mem) : Prop :=
  let both := min (looked env patch startingAddress maxSize) (fits env patch startingAddress maxSize)
  let all := max (looked env patch startingAddress maxSize) (fits env patch startingAddress maxSize)
  let start := rangeStart env patch startingAddress
  let after := scanFrom patch (span start both) (mem, [])
  (scanFrom patch (span (start + BitVec.ofNat 64 both) (all - both)) after).2 = after.2

instance (mem : Mem) : Decidable (QuietRest env patch startingAddress maxSize mem) :=
  inferInstanceAs (Decidable (_ = _))

/-- A running image does not reach the end of the address space, and does not begin so near to its
beginning that a patch has no room below. -/
structure InKernel : Prop where
  below : patch.size ≤ (imageOf patch env).1.toNat
  ends : (imageOf patch env).1.toNat + (imageOf patch env).2.toNat < 2 ^ 64

variable {env patch startingAddress maxSize}

/-- **What is left**: the rewrites at the places that are looked at. -/
theorem applyLookupPatch_mem (hvalid : patch.Loaded) (hne : patch.find ≠ patch.replace)
    (s : Patched) : ∃ fuel s', applyLookupPatch env fuel (some patch) startingAddress maxSize s = some s' ∧
      s'.mem = (scanFrom patch (span (rangeStart env patch startingAddress)
        (looked env patch startingAddress maxSize)) (s.mem, [])).1 := by
  by_cases hlifts : env.lifts = true
  · obtain ⟨n, r, hr, -, hscan⟩ :=
      loop_scanFrom hne (s := .start startingAddress (imageOf patch env) s.mem) rfl rfl
    refine ⟨n, _, (applyLookupPatch_eq_some env patch startingAddress maxSize hvalid hlifts).mpr
      ⟨r, hr, rfl⟩, ?_⟩
    rw [looked, if_pos hlifts]
    exact congrArg Prod.fst hscan
  · refine ⟨0, { s with code := .MemoryProtection }, ?_, ?_⟩
    · rw [applyLookupPatch, if_neg (not_not.mpr hvalid), if_pos hlifts]
    · rw [looked, if_neg hlifts]
      rfl

/-- A call that ends always ends in the same way. -/
theorem applyLookupPatch_unique {p : Option LookupPatch} {n n' : ℕ} {s r r' : Patched}
    (h : applyLookupPatch env n p startingAddress maxSize s = some r)
    (h' : applyLookupPatch env n' p startingAddress maxSize s = some r') : r = r' := by
  cases p with
  | none => exact Option.some.inj (h.symm.trans h')
  | some p =>
    by_cases hvalid : p.Loaded
    case neg =>
      rw [applyLookupPatch, if_pos hvalid] at h h'
      exact Option.some.inj (h.symm.trans h')
    by_cases hlifts : env.lifts = true
    case neg =>
      rw [applyLookupPatch, if_neg (not_not.mpr hvalid), if_pos hlifts] at h h'
      exact Option.some.inj (h.symm.trans h')
    have hcall := fun fuel s' =>
      @applyLookupPatch_eq_some env p startingAddress maxSize fuel s s' hvalid hlifts
    obtain ⟨b, hb, rfl⟩ := (hcall n r).mp h
    obtain ⟨b', hb', rfl⟩ := (hcall n' r').mp h'
    rw [loop_unique hb hb']

theorem scanFrom_span_add {a : Addr} {n k : ℕ} {r : Mem × List Addr} (h : n ≤ k) :
    scanFrom patch (span a k) r =
      scanFrom patch (span (a + BitVec.ofNat 64 n) (k - n)) (scanFrom patch (span a n) r) := by
  obtain ⟨k, rfl⟩ := Nat.exists_eq_add_of_le h
  rw [span_add, Nat.add_sub_cancel_left]
  exact sweep_append

/-- The range does not begin below the image. -/
theorem size_le_rangeStart (hkernel : InKernel env patch) :
    patch.size ≤ (rangeStart env patch startingAddress).toNat := by
  have hbelow := hkernel.below
  rw [rangeStart, firstAddress]
  split_ifs with hlt
  · exact hbelow.trans (BitVec.lt_def.mp hlt).le
  · exact hbelow

/-- Behind the first bytes of the address space, a patch fits at all places up to an address that is
moved back by its size, also if the difference wraps. -/
theorem sub_size_add_le {start : Addr} (e : Addr) (h : patch.size ≤ start.toNat) :
    (e - BitVec.ofNat 64 patch.size).toNat - start.toNat + patch.size ≤ 2 ^ 64 := by
  have hlt := patch.size_lt
  have he := e.isLt
  have hsize : (BitVec.ofNat 64 patch.size).toNat = patch.size := by
    rw [BitVec.toNat_ofNat, Nat.mod_eq_of_lt hlt]
  rw [BitVec.toNat_sub, hsize]
  rcases Nat.lt_or_ge e.toNat patch.size with hwraps | hle
  · rw [Nat.mod_eq_of_lt (by omega)]
    omega
  · have hmod : (2 ^ 64 - patch.size + e.toNat) % 2 ^ 64 = e.toNat - patch.size := by
      have hsum : 2 ^ 64 - patch.size + e.toNat = e.toNat - patch.size + 2 ^ 64 := by omega
      rw [hsum, Nat.add_mod_right, Nat.mod_eq_of_lt (by omega)]
    rw [hmod]
    omega

/-- No place that is looked at, by one or the other, is so far up that the patch does not fit
there. -/
theorem places_fit (hkernel : InKernel env patch) :
    max (looked env patch startingAddress maxSize) (fits env patch startingAddress maxSize) +
      patch.size ≤ 2 ^ 64 := by
  have hends := hkernel.ends
  have hsize := patch.size_lt
  have hstart := @size_le_rangeStart env patch startingAddress hkernel
  have hlooked : looked env patch startingAddress maxSize + patch.size ≤ 2 ^ 64 := by
    rw [looked]
    split_ifs
    · exact sub_size_add_le _ hstart
    · omega
  have hrange : rangeEnd env patch startingAddress maxSize < 2 ^ 64 := by
    rw [rangeEnd]
    split_ifs
    · exact (min_le_left _ _).trans_lt hends
    · exact hends
  have hfits : fits env patch startingAddress maxSize + patch.size ≤ 2 ^ 64 := by
    rw [fits]
    omega
  omega

end Reference

/-- **When a call leaves the range as the reference scan does**: if and only if nothing is rewritten
at the places that only one of the two looks at. -/
theorem applyLookupPatch_mem_iff (env : LookupEnv) (patch : LookupPatch)
    (startingAddress maxSize : Addr) (s : Patched) (hvalid : patch.Loaded)
    (hkernel : InKernel env patch) (hne : patch.find ≠ patch.replace) :
    (∃ fuel s', applyLookupPatch env fuel (some patch) startingAddress maxSize s = some s' ∧
      s'.mem = referenceScan env patch startingAddress maxSize s.mem) ↔
    QuietRest env patch startingAddress maxSize s.mem := by
  obtain ⟨n, r, hr, hmem⟩ := @applyLookupPatch_mem env patch startingAddress maxSize hvalid hne s
  have hcall : (∃ fuel s', applyLookupPatch env fuel (some patch) startingAddress maxSize s = some s' ∧
      s'.mem = referenceScan env patch startingAddress maxSize s.mem) ↔
      r.mem = referenceScan env patch startingAddress maxSize s.mem := by
    constructor
    · rintro ⟨fuel, s', hs', h⟩
      rw [applyLookupPatch_unique hr hs', h]
    · exact fun h => ⟨n, r, hr, h⟩
  rw [hcall, hmem, referenceScan, QuietRest]
  have hfit := @places_fit env patch startingAddress maxSize hkernel
  rcases Nat.le_total (looked env patch startingAddress maxSize)
    (fits env patch startingAddress maxSize) with hle | hle
  · -- the reference scan goes on where the call stops
    rw [max_eq_right hle] at hfit
    rw [min_eq_left hle, max_eq_right hle, scanFrom_span_add hle, ← scanFrom_eq_iff hne (by omega)]
    exact eq_comm
  · rw [max_eq_left hle] at hfit
    rw [min_eq_right hle, max_eq_left hle, scanFrom_span_add hle, ← scanFrom_eq_iff hne (by omega)]

/-- A kext of two bytes. -/
def twoBytes : LookupEnv where
  kinfos := fun _ => { running_mh := 0xFFFFFF8000200000, memory_size := 2 }
  lifts := true
  drops := true

/-- Two ones, the first of which is replaced. -/
theorem applyLookupPatch_mem_twoBytes : ∃ fuel s', applyLookupPatch twoBytes fuel
      (some (patchOne 2 1)) 0 0 ⟨fun _ => 1, .NoError, []⟩ = some s' ∧
    s'.mem = referenceScan twoBytes (patchOne 2 1) 0 0 fun _ => 1 :=
  (applyLookupPatch_mem_iff twoBytes (patchOne 2 1) 0 0 ⟨fun _ => 1, .NoError, []⟩
    (loaded_patchOne 2 1) ⟨by decide, by decide⟩ (by decide)).mpr (by decide)

/-- A one at the end is not looked at. -/
theorem not_applyLookupPatch_mem_last : ¬ ∃ fuel s', applyLookupPatch twoBytes fuel
      (some (patchOne 2 0)) 0 0 ⟨fun a => if a = 0xFFFFFF8000200001 then 1 else 0, .NoError, []⟩ =
        some s' ∧
    s'.mem = referenceScan twoBytes (patchOne 2 0) 0 0
      fun a => if a = 0xFFFFFF8000200001 then 1 else 0 := by
  rintro ⟨fuel, s', hs', hmem⟩
  obtain ⟨n, r, hr, hleft⟩ := @applyLookupPatch_mem twoBytes (patchOne 2 0) 0 0 (loaded_patchOne 2 0)
    (by decide) ⟨fun a => if a = 0xFFFFFF8000200001 then 1 else 0, .NoError, []⟩
  rw [applyLookupPatch_unique hs' hr, hleft] at hmem
  have hlast := congrFun hmem 0xFFFFFF8000200001
  revert hlast
  decide

/-- **Ordinarily** it is only the last place that is not looked at: if the window does not wrap and
the range has room for the patch. -/
theorem looked_eq {env : LookupEnv} {patch : LookupPatch} {startingAddress maxSize : Addr}
    (hlifts : env.lifts = true) (hkernel : InKernel env patch)
    (hwindow : startingAddress.toNat + maxSize.toNat < 2 ^ 64)
    (hroom : patch.size ≤ rangeEnd env patch startingAddress maxSize) :
    looked env patch startingAddress maxSize = fits env patch startingAddress maxSize - 1 := by
  have hends := hkernel.ends
  have himage : ((imageOf patch env).1 + (imageOf patch env).2).toNat =
      (imageOf patch env).1.toNat + (imageOf patch env).2.toNat := by
    rw [BitVec.toNat_add, Nat.mod_eq_of_lt hends]
  have hsum : (startingAddress + maxSize).toNat = startingAddress.toNat + maxSize.toNat := by
    rw [BitVec.toNat_add, Nat.mod_eq_of_lt hwindow]
  have hsize : (BitVec.ofNat 64 patch.size).toNat = patch.size := by
    rw [BitVec.toNat_ofNat, Nat.mod_eq_of_lt patch.size_lt]
  -- no sum wraps, and the difference does not either
  have hend : (endingAddress patch startingAddress maxSize (imageOf patch env)).toNat =
      rangeEnd env patch startingAddress maxSize - patch.size := by
    rw [rangeEnd] at hroom ⊢
    rw [endingAddress]
    by_cases hmax : 0 < maxSize
    · rw [if_pos hmax] at hroom ⊢
      by_cases hlt : startingAddress + maxSize < (imageOf patch env).1 + (imageOf patch env).2
      · have hnat := BitVec.lt_def.mp hlt
        rw [himage, hsum] at hnat
        rw [min_eq_right hnat.le] at hroom ⊢
        rw [if_pos ⟨hmax, hlt⟩, BitVec.toNat_sub_of_le (BitVec.le_def.mpr (by omega)), hsum, hsize]
      · have hnat := hlt
        rw [BitVec.lt_def, himage, hsum, not_lt] at hnat
        rw [min_eq_left hnat] at hroom ⊢
        rw [if_neg fun h => hlt h.2, BitVec.toNat_sub_of_le (BitVec.le_def.mpr (by omega)), himage,
          hsize]
    · rw [if_neg hmax] at hroom ⊢
      rw [if_neg fun h => hmax h.1, BitVec.toNat_sub_of_le (BitVec.le_def.mpr (by omega)), himage, hsize]
  rw [looked, if_pos hlifts, hend, fits]
  omega

end Lilu.Patcher
