import Lilu.Prelude.Numbering

/-!
# Numbering threads and cores

The threads of a package are numbered in two passes over its cores: the first pass gives the first
thread of each core the next physical and the next logical number, the second pass gives the other
threads the logical numbers behind those, and the physical number of their core's first thread.

## Main definitions

* `Core`, `Package`: the lists that the power management exposes
* `CpuTopology`, `getCpuTopology`: the mapping, and how it is read
* `firsts`, `inOrder`: the first threads of the cores, and all threads in the order of their numbers

## Main results

* `numbers_foldl`: what every entry of the mapping is
* `getCpuTopology_consistent`: the numbers are consistent
-/

namespace Lilu.CPUInfo

open Function (update)

/-- The numbers of a core's threads; a core may have none. -/
abbrev Core := List ℕ

/-- The cores of a package. -/
abbrev Package := List Core

def MaxCpus : ℕ := 64

/-- The Darwin version of Lion. -/
def KernelVersion.Lion : ℕ := 11

/-- Installed CPU information mapping. -/
structure CpuTopology where
  packageCount : UInt8 := 0
  physicalCount : ℕ → UInt8 := fun _ => 0
  logicalCount : ℕ → UInt8 := fun _ => 0
  numberToPackage : ℕ → UInt8 := fun _ => 0
  numberToPhysical : ℕ → UInt8 := fun _ => 0
  numberToLogical : ℕ → UInt8 := fun _ => 0

namespace CpuTopology

/-- `totalPhysical`: the sum is one of bytes. -/
def totalPhysical (t : CpuTopology) : UInt8 :=
  (List.range' 1 (t.packageCount.toNat - 1)).foldl (fun count i => count + t.physicalCount i)
    (t.physicalCount 0)

def numberToPhysicalUnique (t : CpuTopology) (i : ℕ) : UInt8 :=
  let package := t.numberToPackage i
  (List.range package.toNat).foldl (fun num i => num + t.physicalCount i) 0 + t.numberToPhysical i

/-- The first thread of a core gets the next numbers. -/
def addFirst (t : CpuTopology) (cpu_num : ℕ) : CpuTopology :=
  let package := t.packageCount.toNat
  { t with
    numberToPackage := update t.numberToPackage cpu_num t.packageCount
    numberToPhysical := update t.numberToPhysical cpu_num (t.physicalCount package)
    numberToLogical := update t.numberToLogical cpu_num (t.logicalCount package)
    physicalCount := update t.physicalCount package (t.physicalCount package + 1)
    logicalCount := update t.logicalCount package (t.logicalCount package + 1) }

/-- Another thread gets the next logical number, and its core's physical one. -/
def addOther (first : ℕ) (t : CpuTopology) (cpu_num : ℕ) : CpuTopology :=
  let package := t.packageCount.toNat
  { t with
    numberToPackage := update t.numberToPackage cpu_num t.packageCount
    numberToPhysical := update t.numberToPhysical cpu_num (t.numberToPhysical first)
    numberToLogical := update t.numberToLogical cpu_num (t.logicalCount package)
    logicalCount := update t.logicalCount package (t.logicalCount package + 1) }

/-- The first pass at a core; a core that is disabled may have no threads. -/
def firstThread (t : CpuTopology) : Core → CpuTopology
  | [] => t
  | lcpu :: _ => t.addFirst lcpu

/-- The second pass at a core. -/
def otherThreads (t : CpuTopology) : Core → CpuTopology
  | [] => t
  | first_lcpu :: lcpus => lcpus.foldl (addOther first_lcpu) t

/-- The two passes over a package. -/
def passes (t : CpuTopology) (pkg : Package) : CpuTopology :=
  let t := pkg.foldl firstThread t
  pkg.foldl otherThreads t

/-- What is done with a package. -/
def addPackage (t : CpuTopology) (pkg : Package) : CpuTopology :=
  let t := t.passes pkg
  { t with packageCount := t.packageCount + 1 }

end CpuTopology

/-- The kernel: its version, and the packages from the root on if there is the callback for it. -/
structure Kernel where
  version : ℕ
  GetPkgRoot : Option (List Package)

/-- `getCpuTopology`: whether it succeeds, and the mapping. A root that is null has no packages. -/
def getCpuTopology (K : Kernel) (topology : CpuTopology) : Bool × CpuTopology :=
  if K.version < KernelVersion.Lion then (false, topology)
  else
    match K.GetPkgRoot with
    | none => (false, topology)
    | some [] => (false, topology)
    | some (pkg :: pkgs) => (true, (pkg :: pkgs).foldl CpuTopology.addPackage topology)

/-! ## The order of the numbers -/

section Order

/-- The first threads of the cores. -/
def firsts (pkg : Package) : List ℕ :=
  pkg.filterMap List.head?

/-- The other threads. -/
def others (pkg : Package) : List ℕ :=
  pkg.flatMap List.tail

/-- The threads of a package in the order of their logical numbers. -/
def inOrder (pkg : Package) : List ℕ :=
  firsts pkg ++ others pkg

variable {pkg : Package} {core : Core} {c x : ℕ}

theorem others_cons : others (core :: pkg) = core.tail ++ others pkg :=
  List.flatMap_cons

theorem inOrder_perm (pkg : Package) : (inOrder pkg).Perm pkg.flatten := by
  induction pkg with
  | nil => exact List.Perm.refl _
  | cons core pkg ih =>
    cases core with
    | nil => exact ih
    | cons x rest =>
      -- the other threads of the first core come behind the first threads of all others
      have hfirsts : inOrder ((x :: rest) :: pkg) = x :: (firsts pkg ++ (rest ++ others pkg)) := rfl
      rw [hfirsts, List.flatten_cons, List.cons_append, List.perm_cons]
      have hswap : (firsts pkg ++ (rest ++ others pkg)).Perm (rest ++ inOrder pkg) := by
        rw [inOrder, ← List.append_assoc, ← List.append_assoc]
        exact List.perm_append_comm.append_right _
      exact hswap.trans (ih.append_left rest)

theorem mem_inOrder : c ∈ inOrder pkg ↔ ∃ core ∈ pkg, c ∈ core := by
  rw [(inOrder_perm pkg).mem_iff, List.mem_flatten]

theorem mem_firsts : c ∈ firsts pkg ↔ ∃ core ∈ pkg, core.head? = some c :=
  List.mem_filterMap

theorem others_subset : others pkg ⊆ pkg.flatten := by
  intro c hc
  exact (inOrder_perm pkg).mem_iff.mp (List.mem_append_right _ hc)

theorem firsts_subset : firsts pkg ⊆ inOrder pkg :=
  List.subset_append_left _ _

end Order

/-! ## The passes over a package -/

namespace CpuTopology

variable {t t' t'' : CpuTopology} {pkg : Package} {core : Core} {l l' : List ℕ} {c x first : ℕ}

/-- Some threads of the package that a mapping is at are numbered; nothing else changes. -/
structure Numbers (t t' : CpuTopology) (l : List ℕ) : Prop where
  packageCount : t'.packageCount = t.packageCount
  physicalCount : ∀ k ≠ t.packageCount.toNat, t'.physicalCount k = t.physicalCount k
  logicalCount : ∀ k ≠ t.packageCount.toNat, t'.logicalCount k = t.logicalCount k
  numberToPackage : ∀ c, t'.numberToPackage c = if c ∈ l then t.packageCount else t.numberToPackage c
  numberToPhysical : ∀ c ∉ l, t'.numberToPhysical c = t.numberToPhysical c
  numberToLogical : ∀ c ∉ l, t'.numberToLogical c = t.numberToLogical c

theorem Numbers.refl (t : CpuTopology) : Numbers t t [] := by
  constructor <;> simp

theorem Numbers.trans (h : Numbers t t' l) (h' : Numbers t' t'' l') : Numbers t t'' (l ++ l') where
  packageCount := h'.packageCount.trans h.packageCount
  physicalCount k hk := by rw [h'.physicalCount k (h.packageCount ▸ hk), h.physicalCount k hk]
  logicalCount k hk := by rw [h'.logicalCount k (h.packageCount ▸ hk), h.logicalCount k hk]
  numberToPackage c := by
    rw [h'.numberToPackage, h.numberToPackage, h.packageCount]
    simp only [List.mem_append]
    split_ifs <;> simp_all
  numberToPhysical c hc := by
    rw [List.mem_append, not_or] at hc
    rw [h'.numberToPhysical c hc.2, h.numberToPhysical c hc.1]
  numberToLogical c hc := by
    rw [List.mem_append, not_or] at hc
    rw [h'.numberToLogical c hc.2, h.numberToLogical c hc.1]

theorem numbers_addFirst (t : CpuTopology) (c : ℕ) : Numbers t (t.addFirst c) [c] := by
  constructor <;> simp +contextual [addFirst, Function.update_apply]

theorem numbers_addOther (first : ℕ) (t : CpuTopology) (c : ℕ) :
    Numbers t (t.addOther first c) [c] := by
  constructor <;> simp +contextual [addOther, Function.update_apply]

theorem numbers_fold {f : CpuTopology → ℕ → CpuTopology} (hf : ∀ t c, Numbers t (f t c) [c])
    (l : List ℕ) (t : CpuTopology) : Numbers t (l.foldl f t) l := by
  induction l generalizing t with
  | nil => exact Numbers.refl t
  | cons c l ih => exact (hf t c).trans (ih _)

/-- The first pass numbers the first threads. -/
theorem foldl_firstThread : pkg.foldl firstThread t = (firsts pkg).foldl addFirst t := by
  induction pkg generalizing t with
  | nil => rfl
  | cons core pkg ih =>
    cases core with
    | nil => exact ih
    | cons x rest => exact ih

theorem numbers_otherThreads (t : CpuTopology) (core : Core) :
    Numbers t (t.otherThreads core) core.tail := by
  cases core with
  | nil => exact Numbers.refl t
  | cons x rest => exact numbers_fold (numbers_addOther x) rest t

theorem numbers_foldl_otherThreads (pkg : Package) (t : CpuTopology) :
    Numbers t (pkg.foldl otherThreads t) (others pkg) := by
  induction pkg generalizing t with
  | nil => exact Numbers.refl t
  | cons core pkg ih => exact (numbers_otherThreads t core).trans (ih _)

/-! ### Logical numbers -/

/-- The logical numbers so far, and the next one. -/
def logical (t : CpuTopology) : (ℕ → UInt8) × UInt8 :=
  (t.numberToLogical, t.logicalCount t.packageCount.toNat)

theorem logical_addFirst : (t.addFirst c).logical = giveNumber (· + 1) t.logical c := by
  simp [logical, addFirst, giveNumber]

theorem logical_addOther : (t.addOther first c).logical = giveNumber (· + 1) t.logical c := by
  simp [logical, addOther, giveNumber]

theorem logical_foldl_otherThreads (pkg : Package) (t : CpuTopology) :
    (pkg.foldl otherThreads t).logical = (others pkg).foldl (giveNumber (· + 1)) t.logical := by
  induction pkg generalizing t with
  | nil => rfl
  | cons core pkg ih =>
    have hcore : (t.otherThreads core).logical = core.tail.foldl (giveNumber (· + 1)) t.logical := by
      cases core with
      | nil => rfl
      | cons x rest => exact (List.foldl_hom logical fun _ _ => logical_addOther.symm).symm
    rw [List.foldl_cons, ih, hcore, others_cons, List.foldl_append]

/-! ### Physical numbers -/

/-- The physical numbers so far, and the next one. -/
def physical (t : CpuTopology) : (ℕ → UInt8) × UInt8 :=
  (t.numberToPhysical, t.physicalCount t.packageCount.toNat)

theorem physical_addFirst : (t.addFirst c).physical = giveNumber (· + 1) t.physical c := by
  simp [physical, addFirst, giveNumber]

/-- The other threads of a core get the physical number of the first. -/
theorem numberToPhysical_foldl_addOther (hx : x ∉ l) (hc : c ∈ l) :
    (l.foldl (addOther x) t).numberToPhysical c = t.numberToPhysical x := by
  induction l generalizing t with
  | nil => exact absurd hc List.not_mem_nil
  | cons d l ih =>
    rw [List.mem_cons, not_or] at hx
    by_cases hcl : c ∈ l
    · have hsame := (numbers_addOther x t d).numberToPhysical x (by simpa using hx.1)
      exact (ih hx.2 hcl).trans hsame
    · obtain rfl : c = d := (List.mem_cons.mp hc).resolve_right hcl
      have hrest := (numbers_fold (numbers_addOther x) l (t.addOther x c)).numberToPhysical c hcl
      exact hrest.trans (Function.update_self _ _ _)

/-- The other threads of one core get the physical number of the first, which keeps its own. -/
theorem numberToPhysical_otherThreads (hcore : core.Nodup) (hx : core.head? = some x)
    (hc : c ∈ core) : (t.otherThreads core).numberToPhysical c = t.numberToPhysical x := by
  obtain ⟨rest, rfl⟩ := List.head?_eq_some_iff.mp hx
  obtain ⟨hxrest, -⟩ := List.nodup_cons.mp hcore
  rcases List.mem_cons.mp hc with rfl | hc
  · exact (numbers_otherThreads t _).numberToPhysical c hxrest
  · exact numberToPhysical_foldl_addOther hxrest hc

/-- **The second pass** gives all threads of a core the physical number of the first. -/
theorem numberToPhysical_foldl_otherThreads (hpkg : pkg.flatten.Nodup) (hcore : core ∈ pkg)
    (hx : core.head? = some x) (hc : c ∈ core) :
    (pkg.foldl otherThreads t).numberToPhysical c = t.numberToPhysical x := by
  induction pkg generalizing t with
  | nil => exact absurd hcore List.not_mem_nil
  | cons core' pkg ih =>
    rw [List.flatten_cons, List.nodup_append] at hpkg
    obtain ⟨hcore', hflatten, hdisjoint⟩ := hpkg
    rcases List.mem_cons.mp hcore with rfl | hcore
    · -- the cores behind do not have the thread
      have hothers : c ∉ others pkg := fun hmem => hdisjoint c hc c (others_subset hmem) rfl
      have hrest := (numbers_foldl_otherThreads pkg (t.otherThreads core)).numberToPhysical c hothers
      exact hrest.trans (numberToPhysical_otherThreads hcore' hx hc)
    · have hxmem : x ∈ pkg.flatten := List.mem_flatten.mpr ⟨core, hcore, List.mem_of_mem_head? hx⟩
      have htail : x ∉ core'.tail := fun hmem =>
        hdisjoint x (List.mem_of_mem_tail hmem) x hxmem rfl
      exact (ih hflatten hcore).trans ((numbers_otherThreads t core').numberToPhysical x htail)

/-! ### The package -/

theorem iterate_succ_byte (n : ℕ) : (· + 1)^[n] (0 : UInt8) = UInt8.ofNat n := by
  induction n with
  | zero => rfl
  | succ n ih =>
    rw [Function.iterate_succ_apply', ih, UInt8.ofNat_add]
    rfl

theorem physicalCount_foldl_otherThreads (pkg : Package) (t : CpuTopology) :
    (pkg.foldl otherThreads t).physicalCount = t.physicalCount := by
  have hother : ∀ (l : List ℕ) (x : ℕ) (t : CpuTopology),
      (l.foldl (addOther x) t).physicalCount = t.physicalCount := by
    intro l x
    induction l with
    | nil => exact fun _ => rfl
    | cons c l ih => exact fun t => ih (t.addOther x c)
  induction pkg generalizing t with
  | nil => rfl
  | cons core pkg ih =>
    cases core with
    | nil => exact ih t
    | cons x rest => exact (ih _).trans (hother rest x t)

theorem numbers_passes (t : CpuTopology) (pkg : Package) :
    Numbers t (t.passes pkg) (inOrder pkg) := by
  have hfirst : Numbers t (pkg.foldl firstThread t) (firsts pkg) := by
    rw [foldl_firstThread]
    exact numbers_fold numbers_addFirst (firsts pkg) t
  exact hfirst.trans (numbers_foldl_otherThreads pkg _)

theorem nodup_inOrder (hpkg : pkg.flatten.Nodup) : (inOrder pkg).Nodup :=
  (inOrder_perm pkg).nodup_iff.mpr hpkg

/-- The two passes number the threads of a package one after the other. -/
theorem logical_passes (hpkg : pkg.flatten.Nodup)
    (hzero : t.logicalCount t.packageCount.toNat = 0) : (t.passes pkg).logical =
      (numbered (· + 1) (inOrder pkg) t.numberToLogical 0, UInt8.ofNat (inOrder pkg).length) := by
  have hfirst : (pkg.foldl firstThread t).logical =
      (firsts pkg).foldl (giveNumber (· + 1)) t.logical := by
    rw [foldl_firstThread]
    exact (List.foldl_hom logical fun _ _ => logical_addFirst.symm).symm
  rw [passes, logical_foldl_otherThreads, hfirst, ← List.foldl_append, logical, hzero,
    ← iterate_succ_byte]
  exact foldl_giveNumber (nodup_inOrder hpkg)

/-- The first pass numbers the first threads of the cores one after the other. -/
theorem physical_foldl_firstThread (hpkg : pkg.flatten.Nodup)
    (hzero : t.physicalCount t.packageCount.toNat = 0) : (pkg.foldl firstThread t).physical =
      (numbered (· + 1) (firsts pkg) t.numberToPhysical 0, UInt8.ofNat (firsts pkg).length) := by
  have hfirsts : (firsts pkg).Nodup := (List.nodup_append.mp (nodup_inOrder hpkg)).1
  rw [foldl_firstThread, ← List.foldl_hom physical fun _ _ => physical_addFirst.symm, physical,
    hzero, ← iterate_succ_byte]
  exact foldl_giveNumber hfirsts

/-- What is done with a package that has no numbers yet. -/
structure Added (t : CpuTopology) (pkg : Package) (t' : CpuTopology) : Prop where
  packageCount : t'.packageCount = t.packageCount + 1
  physicalCount : t'.physicalCount =
    update t.physicalCount t.packageCount.toNat (UInt8.ofNat (firsts pkg).length)
  logicalCount : t'.logicalCount =
    update t.logicalCount t.packageCount.toNat (UInt8.ofNat (inOrder pkg).length)
  numberToPackage : ∀ c, t'.numberToPackage c =
    if c ∈ inOrder pkg then t.packageCount else t.numberToPackage c
  numberToLogical : ∀ c, t'.numberToLogical c =
    if c ∈ inOrder pkg then UInt8.ofNat ((inOrder pkg).idxOf c) else t.numberToLogical c
  numberToPhysical : ∀ core ∈ pkg, ∀ x, core.head? = some x → ∀ c ∈ core,
    t'.numberToPhysical c = UInt8.ofNat ((firsts pkg).idxOf x)
  others : ∀ c ∉ inOrder pkg, t'.numberToPhysical c = t.numberToPhysical c

/-- **A package** is numbered from zero on. -/
theorem added_addPackage (hpkg : pkg.flatten.Nodup)
    (hphysical : t.physicalCount t.packageCount.toNat = 0)
    (hlogical : t.logicalCount t.packageCount.toNat = 0) : Added t pkg (t.addPackage pkg) := by
  have hnumbers := numbers_passes t pkg
  have hlog := logical_passes hpkg hlogical
  have hphys := physical_foldl_firstThread hpkg hphysical
  have hcount : (pkg.foldl firstThread t).packageCount = t.packageCount := by
    rw [foldl_firstThread]
    exact (numbers_fold numbers_addFirst (firsts pkg) t).packageCount
  refine ⟨congrArg (· + 1) hnumbers.packageCount, ?_, ?_, hnumbers.numberToPackage, ?_, ?_,
    hnumbers.numberToPhysical⟩
  · refine Function.eq_update_iff.mpr ⟨?_, hnumbers.physicalCount⟩
    have hlast := congrArg Prod.snd hphys
    rw [physical, hcount] at hlast
    exact (congrFun (physicalCount_foldl_otherThreads pkg _) _).trans hlast
  · refine Function.eq_update_iff.mpr ⟨?_, hnumbers.logicalCount⟩
    have hlast := congrArg Prod.snd hlog
    rwa [logical, hnumbers.packageCount] at hlast
  · intro c
    have hc : (t.passes pkg).numberToLogical c =
        numbered (· + 1) (inOrder pkg) t.numberToLogical 0 c := congrFun (congrArg Prod.fst hlog) c
    simp only [numbered, iterate_succ_byte] at hc
    exact hc
  · intro core hcore x hx c hc
    have hxfirst : x ∈ firsts pkg := mem_firsts.mpr ⟨core, hcore, hx⟩
    have hfirst : (pkg.foldl firstThread t).numberToPhysical x =
        numbered (· + 1) (firsts pkg) t.numberToPhysical 0 x := congrFun (congrArg Prod.fst hphys) x
    simp only [numbered, if_pos hxfirst, iterate_succ_byte] at hfirst
    exact (numberToPhysical_foldl_otherThreads hpkg hcore hx hc).trans hfirst

/-! ## All packages -/

/-- Some packages are numbered, and nothing else is. -/
structure Numbered (pkgs : List Package) (t : CpuTopology) : Prop where
  packageCount : t.packageCount = UInt8.ofNat pkgs.length
  physicalCount : ∀ k, t.physicalCount k = UInt8.ofNat (firsts (pkgs.getD k [])).length
  logicalCount : ∀ k, t.logicalCount k = UInt8.ofNat (inOrder (pkgs.getD k [])).length
  numberToPackage : ∀ k pkg, pkgs[k]? = some pkg → ∀ c ∈ inOrder pkg,
    t.numberToPackage c = UInt8.ofNat k
  numberToLogical : ∀ pkg ∈ pkgs, ∀ c ∈ inOrder pkg,
    t.numberToLogical c = UInt8.ofNat ((inOrder pkg).idxOf c)
  numberToPhysical : ∀ pkg ∈ pkgs, ∀ core ∈ pkg, ∀ x, core.head? = some x → ∀ c ∈ core,
    t.numberToPhysical c = UInt8.ofNat ((firsts pkg).idxOf x)

theorem numbered_nil : Numbered [] {} := by
  constructor <;> simp [firsts, inOrder, others]

theorem getD_concat {pkgs : List Package} (k : ℕ) :
    (pkgs ++ [pkg]).getD k [] = if k = pkgs.length then pkg else pkgs.getD k [] := by
  rw [List.getD_eq_getElem?_getD, List.getD_eq_getElem?_getD]
  rcases Nat.lt_trichotomy k pkgs.length with hlt | rfl | hgt
  · rw [List.getElem?_append_left hlt, if_neg hlt.ne]
  · rw [List.getElem?_concat_length, if_pos rfl, Option.getD_some]
  · rw [List.getElem?_eq_none (by simp; omega), List.getElem?_eq_none hgt.le, if_neg hgt.ne']

/-- **One package after the other**: the numbers of those before stay. -/
theorem Numbered.concat {pkgs : List Package} (h : Numbered pkgs t)
    (hnodup : (pkgs ++ [pkg]).flatten.flatten.Nodup) (hlen : pkgs.length < 256) :
    Numbered (pkgs ++ [pkg]) (t.addPackage pkg) := by
  have hcount : t.packageCount.toNat = pkgs.length := by
    rw [h.packageCount]
    exact UInt8.toNat_ofNat_of_lt' hlen
  rw [List.flatten_append, List.flatten_append, List.nodup_append] at hnodup
  obtain ⟨-, hpkg, hdisjoint⟩ := hnodup
  rw [List.flatten_singleton] at hpkg hdisjoint
  have hnone : pkgs.getD t.packageCount.toNat [] = [] := by
    rw [hcount, List.getD_eq_getElem?_getD, List.getElem?_eq_none le_rfl, Option.getD_none]
  have hadd : Added t pkg (t.addPackage pkg) := by
    apply added_addPackage hpkg
    · rw [h.physicalCount, hnone]
      rfl
    · rw [h.logicalCount, hnone]
      rfl
  -- no thread of the package is one of those before
  have hother : ∀ pkg' ∈ pkgs, ∀ c ∈ inOrder pkg', c ∉ inOrder pkg := by
    intro pkg' hmem c hc hc'
    refine hdisjoint c ?_ c ((inOrder_perm pkg).mem_iff.mp hc') rfl
    obtain ⟨core, hcore, hcc⟩ := mem_inOrder.mp hc
    exact List.mem_flatten.mpr ⟨core, List.mem_flatten.mpr ⟨pkg', hmem, hcore⟩, hcc⟩
  constructor
  · rw [hadd.packageCount, h.packageCount, List.length_append, UInt8.ofNat_add]
    rfl
  · intro k
    rw [hadd.physicalCount, hcount, Function.update_apply, getD_concat, h.physicalCount]
    split_ifs
    · rfl
    · rfl
  · intro k
    rw [hadd.logicalCount, hcount, Function.update_apply, getD_concat, h.logicalCount]
    split_ifs
    · rfl
    · rfl
  · intro k pkg' hk c hc
    rw [hadd.numberToPackage]
    rcases Nat.lt_or_ge k pkgs.length with hlt | hge
    · rw [List.getElem?_append_left hlt] at hk
      rw [if_neg (hother pkg' (List.mem_of_getElem? hk) c hc)]
      exact h.numberToPackage k pkg' hk c hc
    · rw [List.getElem?_append_right hge, List.getElem?_singleton] at hk
      obtain ⟨hzero, heq⟩ := Option.ite_none_right_eq_some.mp hk
      obtain rfl := Option.some.inj heq
      rw [if_pos hc, h.packageCount]
      congr 1
      omega
  · intro pkg' hmem c hc
    rw [hadd.numberToLogical]
    rcases List.mem_append.mp hmem with hmem | hmem
    · rw [if_neg (hother pkg' hmem c hc)]
      exact h.numberToLogical pkg' hmem c hc
    · obtain rfl := List.mem_singleton.mp hmem
      exact if_pos hc
  · intro pkg' hmem core hcore x hx c hc
    rcases List.mem_append.mp hmem with hmem | hmem
    · rw [hadd.others c (hother pkg' hmem c (mem_inOrder.mpr ⟨core, hcore, hc⟩))]
      exact h.numberToPhysical pkg' hmem core hcore x hx c hc
    · obtain rfl := List.mem_singleton.mp hmem
      exact hadd.numberToPhysical core hcore x hx c hc

/-- **All packages** are numbered. -/
theorem numbered_foldl {pkgs : List Package} (hnodup : pkgs.flatten.flatten.Nodup)
    (hlen : pkgs.length ≤ MaxCpus) : Numbered pkgs (pkgs.foldl addPackage {}) := by
  induction pkgs using List.reverseRecOn with
  | nil => exact numbered_nil
  | append_singleton pkgs pkg ih =>
    rw [List.length_append, List.length_singleton, MaxCpus] at hlen
    have hbefore : pkgs.flatten.flatten.Nodup := by
      rw [List.flatten_append, List.flatten_append] at hnodup
      exact (List.nodup_append.mp hnodup).1
    rw [List.foldl_append]
    exact (ih hbefore (by rw [MaxCpus]; omega)).concat hnodup (by omega)

/-! ### Physical numbers in all packages -/

/-- The first threads of all cores. -/
theorem flatten_map_firsts (pkgs : List Package) :
    (pkgs.map firsts).flatten = firsts pkgs.flatten := by
  rw [firsts, List.filterMap_flatten]
  rfl

/-- The cores of the first packages are counted. -/
theorem foldl_physicalCount {pkgs : List Package} (h : Numbered pkgs t) (k : ℕ) :
    (List.range k).foldl (fun num i => num + t.physicalCount i) 0 =
      UInt8.ofNat (((pkgs.map firsts).take k).map List.length).sum := by
  induction k with
  | zero => rfl
  | succ k ih =>
    have hlast : ((pkgs.map firsts)[k]?.map List.length).getD 0 =
        (firsts (pkgs.getD k [])).length := by
      rw [List.getElem?_map, List.getD_eq_getElem?_getD]
      cases pkgs[k]? with
      | none => rfl
      | some pkg => rfl
    rw [List.range_succ, List.foldl_append, ih, List.foldl_cons, List.foldl_nil, h.physicalCount,
      ← UInt8.ofNat_add, ← hlast, List.take_add_one, List.map_append, List.sum_append]
    cases (pkgs.map firsts)[k]? with
    | none => rfl
    | some l => simp

theorem totalPhysical_eq {pkgs : List Package} (h : Numbered pkgs t) (hlen : pkgs.length ≤ MaxCpus) :
    t.totalPhysical = UInt8.ofNat (firsts pkgs.flatten).length := by
  have hcount : t.packageCount.toNat = pkgs.length := by
    rw [h.packageCount]
    exact UInt8.toNat_ofNat_of_lt' (hlen.trans_lt (by decide))
  have hall := foldl_physicalCount h pkgs.length
  rw [List.take_of_length_le (by rw [List.length_map]), ← List.length_flatten,
    flatten_map_firsts] at hall
  rw [totalPhysical, hcount, ← hall]
  -- the count begins with the first package, even if there is none
  cases hpkgs : pkgs.length with
  | zero =>
    obtain rfl := List.length_eq_zero_iff.mp hpkgs
    exact h.physicalCount 0
  | succ n =>
    rw [List.range_eq_range', List.range'_succ, List.foldl_cons, UInt8.zero_add,
      Nat.add_sub_cancel]

/-- **A thread's physical number in all packages** is the place of its core's first thread. -/
theorem numberToPhysicalUnique_eq {pkgs : List Package} (h : Numbered pkgs t)
    (hnodup : pkgs.flatten.flatten.Nodup) (hlen : pkgs.length ≤ MaxCpus)
    (hcore : core ∈ pkgs.flatten) (hx : core.head? = some x) (hc : c ∈ core) :
    t.numberToPhysicalUnique c = UInt8.ofNat ((firsts pkgs.flatten).idxOf x) := by
  obtain ⟨pkg, hpkg, hmem⟩ := List.mem_flatten.mp hcore
  obtain ⟨k, hk⟩ := List.mem_iff_getElem?.mp hpkg
  have hlt : k < pkgs.length := (List.getElem?_eq_some_iff.mp hk).1
  have hpackage : (t.numberToPackage c).toNat = k := by
    rw [h.numberToPackage k pkg hk c (mem_inOrder.mpr ⟨core, hmem, hc⟩)]
    exact UInt8.toNat_ofNat_of_lt' ((hlt.trans_le hlen).trans (by decide))
  have hfirsts : (firsts pkgs.flatten).Nodup := (List.nodup_append.mp (nodup_inOrder hnodup)).1
  rw [← flatten_map_firsts] at hfirsts ⊢
  rw [numberToPhysicalUnique, hpackage, foldl_physicalCount h,
    h.numberToPhysical pkg hpkg core hmem x hx c hc, ← UInt8.ofNat_add,
    idxOf_flatten hfirsts (by rw [List.getElem?_map, hk]; rfl) (mem_firsts.mpr ⟨core, hmem, hx⟩)]

end CpuTopology

/-! ## Consistent numbers -/

/-- What the power management exposes: not too many packages, and threads with different numbers. -/
structure Exposed (pkgs : List Package) : Prop where
  length_le : pkgs.length ≤ MaxCpus
  lt : ∀ c ∈ pkgs.flatten.flatten, c < MaxCpus
  nodup : pkgs.flatten.flatten.Nodup

/-- The numbers of a mapping are consistent. -/
structure Consistent (pkgs : List Package) (t : CpuTopology) : Prop where
  logical : ∀ k pkg, pkgs[k]? = some pkg → Set.BijOn (fun c => (t.numberToLogical c).toNat)
    {c | c ∈ pkg.flatten} (Set.Iio (t.logicalCount k).toNat)
  first_iff : ∀ k pkg, pkgs[k]? = some pkg → ∀ c ∈ pkg.flatten,
    t.numberToLogical c < t.physicalCount k ↔ ∃ core ∈ pkg, core.head? = some c
  first_eq : ∀ k pkg, pkgs[k]? = some pkg → ∀ c ∈ pkg.flatten,
    t.numberToLogical c < t.physicalCount k → t.numberToLogical c = t.numberToPhysical c
  shared : ∀ core ∈ pkgs.flatten, ∀ c ∈ core, ∀ c' ∈ core,
    t.numberToPhysical c = t.numberToPhysical c'
  unique_iff : ∀ c ∈ pkgs.flatten.flatten, ∀ c' ∈ pkgs.flatten.flatten,
    t.numberToPhysicalUnique c = t.numberToPhysicalUnique c' ↔
      ∃ core ∈ pkgs.flatten, c ∈ core ∧ c' ∈ core
  covered : (fun c => (t.numberToPhysicalUnique c).toNat) '' {c | c ∈ pkgs.flatten.flatten} =
    Set.Iio t.totalPhysical.toNat

variable {pkgs : List Package} {pkg : Package} {core core' : Core} {t : CpuTopology} {c : ℕ}

/-- There are not more threads than numbers for them. -/
theorem Exposed.threads_le (h : Exposed pkgs) : pkgs.flatten.flatten.length ≤ MaxCpus := by
  have hsub : pkgs.flatten.flatten ⊆ List.range MaxCpus := fun c hc => List.mem_range.mpr (h.lt c hc)
  have hle := (h.nodup.subperm hsub).length_le
  rwa [List.length_range] at hle

theorem length_inOrder_le (h : Exposed pkgs) (hpkg : pkg ∈ pkgs) :
    (inOrder pkg).length ≤ MaxCpus := by
  have hsub : pkg.flatten.Sublist pkgs.flatten.flatten :=
    (List.sublist_flatten_of_mem hpkg).flatten
  rw [(inOrder_perm pkg).length_eq]
  exact hsub.length_le.trans h.threads_le

theorem eq_core_of_mem (h : Exposed pkgs) (hcore : core ∈ pkgs.flatten)
    (hcore' : core' ∈ pkgs.flatten) (hc : c ∈ core) (hc' : c ∈ core') : core = core' := by
  by_contra hne
  have : Std.Symm (@List.Disjoint ℕ) := ⟨fun _ _ hdisjoint => hdisjoint.symm⟩
  have hdisjoint := (List.nodup_flatten.mp h.nodup).2
  exact hdisjoint.forall hcore hcore' hne hc hc'

theorem toNat_ofNat {i : ℕ} (h : i ≤ MaxCpus) : (UInt8.ofNat i).toNat = i :=
  UInt8.toNat_ofNat_of_lt' (h.trans_lt (by decide))

namespace CpuTopology.Numbered

/-- A first thread has the same logical and physical number. -/
theorem logical_eq_physical (ht : t.Numbered pkgs) (hpkg : pkg ∈ pkgs) (hc : c ∈ firsts pkg) :
    t.numberToLogical c = t.numberToPhysical c := by
  obtain ⟨core, hcore, hx⟩ := mem_firsts.mp hc
  rw [ht.numberToLogical pkg hpkg c (firsts_subset hc),
    ht.numberToPhysical pkg hpkg core hcore c hx c (List.mem_of_mem_head? hx), inOrder,
    List.idxOf_append_of_mem hc]

variable (h : Exposed pkgs) (ht : t.Numbered pkgs) {k : ℕ}

include h ht

/-- The logical number of a thread is its place. -/
theorem toNat_numberToLogical (hpkg : pkg ∈ pkgs) (hc : c ∈ inOrder pkg) :
    (t.numberToLogical c).toNat = (inOrder pkg).idxOf c := by
  have hlt := (List.idxOf_lt_length_of_mem hc).trans_le (length_inOrder_le h hpkg)
  rw [ht.numberToLogical pkg hpkg c hc, toNat_ofNat hlt.le]

theorem toNat_logicalCount (hk : pkgs[k]? = some pkg) :
    (t.logicalCount k).toNat = (inOrder pkg).length := by
  rw [ht.logicalCount, List.getD_eq_getElem?_getD, hk, Option.getD_some,
    toNat_ofNat (length_inOrder_le h (List.mem_of_getElem? hk))]

theorem toNat_physicalCount (hk : pkgs[k]? = some pkg) :
    (t.physicalCount k).toNat = (firsts pkg).length := by
  have hle : (firsts pkg).length ≤ (inOrder pkg).length := by
    rw [inOrder, List.length_append]
    exact Nat.le_add_right _ _
  rw [ht.physicalCount, List.getD_eq_getElem?_getD, hk, Option.getD_some,
    toNat_ofNat (hle.trans (length_inOrder_le h (List.mem_of_getElem? hk)))]

/-- **The logical numbers** of a package are all below the count. -/
theorem logical_bijOn (hk : pkgs[k]? = some pkg) :
    Set.BijOn (fun c => (t.numberToLogical c).toNat) {c | c ∈ pkg.flatten}
      (Set.Iio (t.logicalCount k).toNat) := by
  have hpkg := List.mem_of_getElem? hk
  have hnodup : (inOrder pkg).Nodup :=
    nodup_inOrder (h.nodup.sublist (List.sublist_flatten_of_mem hpkg).flatten)
  have hset : {c | c ∈ pkg.flatten} = {c | c ∈ inOrder pkg} := by
    ext c
    exact (inOrder_perm pkg).mem_iff.symm
  rw [toNat_logicalCount h ht hk, hset]
  exact (bijOn_idxOf hnodup).congr fun c hc => (toNat_numberToLogical h ht hpkg hc).symm

/-- The first logical numbers are those of the first threads. -/
theorem logical_lt_iff (hk : pkgs[k]? = some pkg) (hc : c ∈ pkg.flatten) :
    t.numberToLogical c < t.physicalCount k ↔ c ∈ firsts pkg := by
  have hc' := (inOrder_perm pkg).mem_iff.mpr hc
  rw [UInt8.lt_iff_toNat_lt, toNat_numberToLogical h ht (List.mem_of_getElem? hk) hc',
    toNat_physicalCount h ht hk]
  exact idxOf_append_lt_iff

/-- A thread has the physical number of its core's first thread, in its package and in all. -/
theorem exists_first (hcore : core ∈ pkgs.flatten) (hc : c ∈ core) :
    ∃ x ∈ firsts pkgs.flatten, core.head? = some x ∧ t.numberToPhysical c = t.numberToPhysical x ∧
      (t.numberToPhysicalUnique c).toNat = (firsts pkgs.flatten).idxOf x := by
  obtain ⟨pkg, hpkg, hmem⟩ := List.mem_flatten.mp hcore
  obtain ⟨x, hx⟩ : ∃ x, core.head? = some x := ⟨_, List.head?_eq_some_head (List.ne_nil_of_mem hc)⟩
  have hxfirst : x ∈ firsts pkgs.flatten := mem_firsts.mpr ⟨core, hcore, hx⟩
  have hle : (inOrder pkgs.flatten).length ≤ MaxCpus :=
    (inOrder_perm pkgs.flatten).length_eq.trans_le h.threads_le
  have hlt := List.idxOf_lt_length_of_mem hxfirst
  rw [inOrder, List.length_append] at hle
  refine ⟨x, hxfirst, hx, ?_, ?_⟩
  · rw [ht.numberToPhysical pkg hpkg core hmem x hx c hc,
      ht.numberToPhysical pkg hpkg core hmem x hx x (List.mem_of_mem_head? hx)]
  · rw [numberToPhysicalUnique_eq ht h.nodup h.length_le hcore hx hc, toNat_ofNat (by omega)]

/-- **The physical numbers in all packages** tell the cores apart. -/
theorem unique_iff (hc : c ∈ pkgs.flatten.flatten) {c' : ℕ} (hc' : c' ∈ pkgs.flatten.flatten) :
    t.numberToPhysicalUnique c = t.numberToPhysicalUnique c' ↔
      ∃ core ∈ pkgs.flatten, c ∈ core ∧ c' ∈ core := by
  obtain ⟨core, hcore, hmem⟩ := List.mem_flatten.mp hc
  obtain ⟨core', hcore', hmem'⟩ := List.mem_flatten.mp hc'
  obtain ⟨x, hxfirst, hx, -, hunique⟩ := exists_first h ht hcore hmem
  obtain ⟨x', -, hx', -, hunique'⟩ := exists_first h ht hcore' hmem'
  rw [← UInt8.toNat_inj, hunique, hunique', List.idxOf_inj hxfirst]
  constructor
  · rintro rfl
    -- the cores have their first thread in common
    obtain rfl := eq_core_of_mem h hcore hcore' (List.mem_of_mem_head? hx)
      (List.mem_of_mem_head? hx')
    exact ⟨core, hcore, hmem, hmem'⟩
  · rintro ⟨core'', hcore'', hc, hc'⟩
    obtain rfl := eq_core_of_mem h hcore hcore'' hmem hc
    obtain rfl := eq_core_of_mem h hcore' hcore hmem' hc'
    exact Option.some.inj (hx.symm.trans hx')

/-- All physical numbers below the total are there. -/
theorem covered : (fun c => (t.numberToPhysicalUnique c).toNat) '' {c | c ∈ pkgs.flatten.flatten} =
    Set.Iio t.totalPhysical.toNat := by
  have hnodup : (firsts pkgs.flatten).Nodup := (List.nodup_append.mp (nodup_inOrder h.nodup)).1
  have hle : (inOrder pkgs.flatten).length ≤ MaxCpus :=
    (inOrder_perm pkgs.flatten).length_eq.trans_le h.threads_le
  rw [inOrder, List.length_append] at hle
  rw [totalPhysical_eq ht h.length_le, toNat_ofNat (by omega)]
  ext n
  constructor
  · rintro ⟨c, hc, rfl⟩
    obtain ⟨core, hcore, hmem⟩ := List.mem_flatten.mp hc
    obtain ⟨x, hxfirst, -, -, hunique⟩ := exists_first h ht hcore hmem
    exact hunique.trans_lt (List.idxOf_lt_length_of_mem hxfirst)
  · intro hn
    obtain ⟨x, hx, rfl⟩ := (bijOn_idxOf hnodup).surjOn hn
    -- the first thread of the core with the number
    obtain ⟨core, hcore, hhead⟩ := mem_firsts.mp hx
    obtain ⟨x', -, hx', -, hunique⟩ := exists_first h ht hcore (List.mem_of_mem_head? hhead)
    obtain rfl := Option.some.inj (hhead.symm.trans hx')
    exact ⟨x, List.mem_flatten.mpr ⟨core, hcore, List.mem_of_mem_head? hhead⟩, hunique⟩

theorem consistent : Consistent pkgs t where
  logical _ _ hk := logical_bijOn h ht hk
  first_iff k pkg hk c hc := (logical_lt_iff h ht hk hc).trans mem_firsts
  first_eq k pkg hk c hc hlt :=
    logical_eq_physical ht (List.mem_of_getElem? hk) ((logical_lt_iff h ht hk hc).mp hlt)
  shared core hcore c hc c' hc' := by
    obtain ⟨x, -, hx, hphysical, -⟩ := exists_first h ht hcore hc
    obtain ⟨x', -, hx', hphysical', -⟩ := exists_first h ht hcore hc'
    obtain rfl := Option.some.inj (hx.symm.trans hx')
    exact hphysical.trans hphysical'.symm
  unique_iff c hc c' hc' := unique_iff h ht hc hc'
  covered := covered h ht

end CpuTopology.Numbered

/-- **The numbers are consistent**, where the mapping was empty before. -/
theorem getCpuTopology_consistent (K : Kernel) (pkgs : List Package)
    (hversion : KernelVersion.Lion ≤ K.version) (hroot : K.GetPkgRoot = some pkgs) (hne : pkgs ≠ [])
    (h : Exposed pkgs) : ∃ t, getCpuTopology K {} = (true, t) ∧ Consistent pkgs t := by
  obtain ⟨pkg, pkgs, rfl⟩ := List.exists_cons_of_ne_nil hne
  refine ⟨_, ?_, CpuTopology.Numbered.consistent h (CpuTopology.numbered_foldl h.nodup h.length_le)⟩
  rw [getCpuTopology, if_neg (not_lt.mpr hversion), hroot]

/-- Two packages, of which the second has a core without threads. -/
def twoPackages : List Package :=
  [[[0, 2], [1, 3]], [[], [5, 4]]]

theorem getCpuTopology_consistent_two :
    ∃ t, getCpuTopology ⟨11, some twoPackages⟩ {} = (true, t) ∧ Consistent twoPackages t :=
  getCpuTopology_consistent ⟨11, some twoPackages⟩ twoPackages le_rfl rfl (by decide)
    ⟨by decide, by decide, by decide⟩

end Lilu.CPUInfo
