import Mathlib.Tactic

/-!
# Lists threaded through a memory

A list is threaded when each of its elements knows the next one and the one before. A path begins
and ends anywhere, and a ring comes back to its head. To change a threaded list it is enough to
change the links next to the place, so that what the rest of a memory holds does not matter.

## Main definitions

* `Linked next prev l`: neighbours in `l` know each other
* `Threaded next prev l`: so they do, and nothing comes twice
* `Ring next prev h l`: from `h` through `l` and back to `h`

## Main results

* `Threaded.unlink`, `Threaded.link`: taking out an element, and putting in another one
* `Ring.unlink`, `Ring.push`, `Ring.replace`: the same for rings, told by their elements
-/

namespace Lilu

variable {α : Type*} {next prev next' prev' : α → α} {l u v : List α} {a b c h : α}

/-- Neighbours know each other. -/
def Linked (next prev : α → α) (l : List α) : Prop :=
  l.IsChain fun a b => next a = b ∧ prev b = a

theorem Linked.split (hl : Linked next prev (u ++ a :: v)) :
    Linked next prev (u ++ [a]) ∧ Linked next prev (a :: v) :=
  List.isChain_split.mp hl

theorem Linked.join (hu : Linked next prev (u ++ [a])) (hv : Linked next prev (a :: v)) :
    Linked next prev (u ++ a :: v) :=
  List.isChain_split.mpr ⟨hu, hv⟩

/-- Only the links of the list matter, forwards but for the last element, and backwards but for the
first. -/
theorem Linked.congr (hl : Linked next prev l) (hnext : ∀ x ∈ l.dropLast, next' x = next x)
    (hprev : ∀ x ∈ l.tail, prev' x = prev x) : Linked next' prev' l := by
  induction l with
  | nil => exact .nil
  | cons a l ih =>
    cases l with
    | nil => exact .singleton a
    | cons b l =>
      obtain ⟨⟨hab, hba⟩, hrest⟩ := List.isChain_cons_cons.mp hl
      refine List.isChain_cons_cons.mpr ⟨⟨?_, ?_⟩, ih hrest (fun x hx => ?_) fun x hx => ?_⟩
      · rw [hnext a (by simp), hab]
      · rw [hprev b (by simp), hba]
      · exact hnext x (by simp [hx])
      · exact hprev x (List.mem_cons_of_mem b hx)

/-- A list whose neighbours know each other, and where nothing comes twice, except that it may end
where it begins. -/
structure Threaded (next prev : α → α) (l : List α) : Prop where
  linked : Linked next prev l
  front : l.dropLast.Nodup
  back : l.tail.Nodup

theorem dropLast_append_cons (u : List α) (a : α) (v : List α) :
    (u ++ a :: v).dropLast = u ++ (a :: v).dropLast :=
  List.dropLast_append_of_ne_nil (List.cons_ne_nil a v)

theorem tail_append_cons (u : List α) (a : α) (v : List α) :
    (u ++ a :: v).tail = (u ++ [a]).tail ++ v := by
  cases u with
  | nil => rfl
  | cons x u => simp

namespace Threaded

theorem next_eq (hl : Threaded next prev (u ++ a :: b :: v)) : next a = b :=
  (List.isChain_cons_cons.mp hl.linked.split.2).1.1

theorem prev_eq (hl : Threaded next prev (u ++ a :: b :: v)) : prev b = a :=
  (List.isChain_cons_cons.mp hl.linked.split.2).1.2

/-- **Taking out an element.** -/
theorem unlink (hl : Threaded next prev (u ++ a :: c :: b :: v)) (ha : next' a = b)
    (hb : prev' b = a) (hnext : ∀ x, x ≠ a → x ≠ c → next' x = next x)
    (hprev : ∀ x, x ≠ b → x ≠ c → prev' x = prev x) :
    Threaded next' prev' (u ++ a :: b :: v) := by
  have hfront := hl.front
  have hback := hl.back
  rw [dropLast_append_cons, List.dropLast_cons_cons, List.dropLast_cons_cons] at hfront
  rw [tail_append_cons, List.nodup_append] at hback
  obtain ⟨hfu, hfv, hfuv⟩ := List.nodup_append.mp hfront
  obtain ⟨hbu, hbv, hbuv⟩ := hback
  obtain ⟨hu, hv⟩ := hl.linked.split
  have hbv' := (List.isChain_cons_cons.mp (List.isChain_cons_cons.mp hv).2).2
  refine ⟨?_, ?_, ?_⟩
  · refine Linked.join (hu.congr ?_ ?_) (List.isChain_cons_cons.mpr ⟨⟨ha, hb⟩, Linked.congr hbv' ?_ ?_⟩)
    · rw [List.dropLast_concat]
      exact fun x hx => hnext x (hfuv x hx a (by simp)) (hfuv x hx c (by simp))
    · exact fun x hx => hprev x (hbuv x hx b (by simp)) (hbuv x hx c (by simp))
    · intro x hx
      rw [List.nodup_cons, List.nodup_cons] at hfv
      refine hnext x ?_ ?_
      · rintro rfl
        exact hfv.1 (List.mem_cons_of_mem _ hx)
      · rintro rfl
        exact hfv.2.1 hx
    · intro x hx
      rw [List.nodup_cons, List.nodup_cons] at hbv
      refine hprev x ?_ ?_
      · rintro rfl
        exact hbv.2.1 hx
      · rintro rfl
        exact hbv.1 (List.mem_cons_of_mem _ hx)
  · rw [dropLast_append_cons, List.dropLast_cons_cons]
    exact hfront.sublist ((List.Sublist.refl u).append
      ((List.sublist_cons_self c _).cons_cons a))
  · have hback := hl.back
    rw [tail_append_cons] at hback
    rw [tail_append_cons]
    exact hback.sublist ((List.Sublist.refl _).append (List.sublist_cons_self c _))

/-- **Putting in an element.** -/
theorem link (hl : Threaded next prev (u ++ a :: b :: v)) (hc : c ∉ u ++ a :: b :: v)
    (ha : next' a = c) (hca : prev' c = a) (hcb : next' c = b) (hb : prev' b = c)
    (hnext : ∀ x, x ≠ a → x ≠ c → next' x = next x)
    (hprev : ∀ x, x ≠ b → x ≠ c → prev' x = prev x) :
    Threaded next' prev' (u ++ a :: c :: b :: v) := by
  have hfront := hl.front
  have hback := hl.back
  rw [dropLast_append_cons, List.dropLast_cons_cons] at hfront
  rw [tail_append_cons, List.nodup_append] at hback
  obtain ⟨hfu, hfv, hfuv⟩ := List.nodup_append.mp hfront
  obtain ⟨hbu, hbv, hbuv⟩ := hback
  obtain ⟨hu, hv⟩ := hl.linked.split
  have hv' := (List.isChain_cons_cons.mp hv).2
  rw [List.mem_append, List.mem_cons, List.mem_cons, not_or, not_or, not_or] at hc
  obtain ⟨hcu, hca', hcb', hcv⟩ := hc
  have hne : ∀ x ∈ u, x ≠ c := fun x hx h => hcu (h ▸ hx)
  have hne' : ∀ x ∈ v, x ≠ c := fun x hx h => hcv (h ▸ hx)
  refine ⟨?_, ?_, ?_⟩
  · refine Linked.join (hu.congr ?_ ?_) (List.isChain_cons_cons.mpr ⟨⟨ha, hca⟩,
      List.isChain_cons_cons.mpr ⟨⟨hcb, hb⟩, Linked.congr hv' ?_ ?_⟩⟩)
    · rw [List.dropLast_concat]
      exact fun x hx => hnext x (hfuv x hx a (by simp)) (hne x hx)
    · intro x hx
      refine hprev x (hbuv x hx b (by simp)) ?_
      rintro rfl
      rcases List.mem_append.mp (List.mem_of_mem_tail hx) with h | h
      · exact hcu h
      · exact hca' (List.mem_singleton.mp h)
    · intro x hx
      refine hnext x ?_ ?_
      · rintro rfl
        exact (List.nodup_cons.mp hfv).1 hx
      · rintro rfl
        rcases List.mem_cons.mp (List.mem_of_mem_dropLast hx) with h | h
        · exact hcb' h
        · exact hcv h
    · intro x hx
      refine hprev x ?_ (hne' x hx)
      rintro rfl
      exact (List.nodup_cons.mp hbv).1 hx
  · rw [dropLast_append_cons, List.dropLast_cons_cons, List.dropLast_cons_cons]
    rw [List.append_cons, List.nodup_middle, List.nodup_cons]
    refine ⟨fun hmem => ?_, by rwa [List.append_assoc]⟩
    simp only [List.mem_append, List.mem_singleton] at hmem
    rcases hmem with (hmem | hmem) | hmem
    · exact hcu hmem
    · exact hca' hmem
    · rcases List.mem_cons.mp (List.mem_of_mem_dropLast hmem) with h | h
      · exact hcb' h
      · exact hcv h
  · rw [tail_append_cons, List.nodup_middle, List.nodup_cons]
    refine ⟨fun hmem => ?_, ?_⟩
    · rcases List.mem_append.mp hmem with hmem | hmem
      · rcases List.mem_append.mp (List.mem_of_mem_tail hmem) with h | h
        · exact hcu h
        · exact hca' (List.mem_singleton.mp h)
      · rcases List.mem_cons.mp hmem with h | h
        · exact hcb' h
        · exact hcv h
    · have hback := hl.back
      rwa [tail_append_cons] at hback

end Threaded

/-! ## Rings -/

/-- A list that begins at a head, and comes back to it. -/
def Ring (next prev : α → α) (h : α) (l : List α) : Prop :=
  Threaded next prev (h :: l ++ [h])

/-- An element of a ring is between two others, or the head. -/
theorem exists_around (h : α) (hc : c ∈ l) : ∃ s t u a b v, l = s ++ c :: t ∧
    h :: (s ++ t) ++ [h] = u ++ a :: b :: v ∧
    ∀ d, h :: (s ++ d :: t) ++ [h] = u ++ a :: d :: b :: v := by
  obtain ⟨s, t, rfl⟩ := List.append_of_mem hc
  obtain hnil | ⟨u, a, hu⟩ := List.eq_nil_or_concat (h :: s)
  · exact absurd hnil (List.cons_ne_nil h s)
  · obtain ⟨b, v, hv⟩ : ∃ b v, t ++ [h] = b :: v := by
      cases t with
      | nil => exact ⟨h, [], rfl⟩
      | cons b t => exact ⟨b, t ++ [h], rfl⟩
    rw [List.concat_eq_append] at hu
    refine ⟨s, t, u, a, b, v, rfl, ?_, fun d => ?_⟩
    · rw [← List.cons_append, List.append_assoc, hv, hu, List.append_assoc]
      rfl
    · rw [← List.cons_append, hu, List.append_assoc, List.cons_append, hv, List.append_assoc]
      rfl

namespace Ring

theorem nodup (hr : Ring next prev h l) : (h :: l).Nodup := by
  have hfront := hr.front
  rwa [List.dropLast_concat] at hfront

theorem head_notMem (hr : Ring next prev h l) : h ∉ l :=
  (List.nodup_cons.mp hr.nodup).1

/-- Only the links of the ring matter. -/
theorem congr (hr : Ring next prev h l) (hnext : ∀ x ∈ h :: l, next' x = next x)
    (hprev : ∀ x ∈ h :: l, prev' x = prev x) : Ring next' prev' h l := by
  refine ⟨hr.linked.congr (fun x hx => hnext x ?_) fun x hx => hprev x ?_, hr.front, hr.back⟩
  · rwa [List.dropLast_concat] at hx
  · rw [List.cons_append, List.tail_cons, List.mem_append, List.mem_singleton] at hx
    exact List.mem_cons.mpr hx.symm

/-- What is next to the head is the first element, if there is one. -/
theorem next_head (hr : Ring next prev h l) : next h = l.headD h := by
  cases l with
  | nil => exact Threaded.next_eq (u := []) hr
  | cons a l => exact Threaded.next_eq (u := []) hr

/-- What is next to an element is the one behind it, if there is one. -/
theorem next_mid (hr : Ring next prev h (u ++ a :: v)) : next a = v.headD h := by
  rw [Ring, ← List.cons_append, List.append_assoc, List.cons_append] at hr
  cases v with
  | nil => exact Threaded.next_eq (u := h :: u) (v := []) hr
  | cons b v => exact Threaded.next_eq (u := h :: u) (v := v ++ [h]) hr

/-- The neighbours of an element. -/
theorem around (hr : Ring next prev h l) (hc : c ∈ l) : ∃ s t u v, l = s ++ c :: t ∧
    h :: (s ++ t) ++ [h] = u ++ prev c :: next c :: v ∧
    ∀ d, h :: (s ++ d :: t) ++ [h] = u ++ prev c :: d :: next c :: v := by
  obtain ⟨s, t, u, a, b, v, rfl, hout, hin⟩ := exists_around h hc
  rw [Ring, hin] at hr
  have hb : next c = b := by
    have hr' := hr
    rw [List.append_cons] at hr'
    exact hr'.next_eq
  obtain rfl := hr.prev_eq
  exact ⟨s, t, u, v, rfl, hb ▸ hout, fun d => hb ▸ hin d⟩

theorem mem_next (hr : Ring next prev h l) (hc : c ∈ l) : next c = h ∨ next c ∈ l := by
  obtain ⟨s, t, u, v, rfl, hout, -⟩ := hr.around hc
  have hmem : next c ∈ h :: (s ++ t) ++ [h] := by
    rw [hout]
    simp
  simp only [List.mem_append, List.mem_cons, List.not_mem_nil, or_false] at hmem ⊢
  tauto

theorem mem_prev (hr : Ring next prev h l) (hc : c ∈ l) : prev c = h ∨ prev c ∈ l := by
  obtain ⟨s, t, u, v, rfl, hout, -⟩ := hr.around hc
  have hmem : prev c ∈ h :: (s ++ t) ++ [h] := by
    rw [hout]
    simp
  simp only [List.mem_append, List.mem_cons, List.not_mem_nil, or_false] at hmem ⊢
  tauto

/-- An element is none of its neighbours. -/
theorem ne_next (hr : Ring next prev h l) (hc : c ∈ l) : next c ≠ c ∧ prev c ≠ c := by
  obtain ⟨s, t, u, v, rfl, hout, hin⟩ := hr.around hc
  have hnodup := hr.nodup
  have hmem : c ∉ h :: (s ++ t) ++ [h] := by
    rw [List.nodup_cons, List.nodup_middle, List.nodup_cons] at hnodup
    simp only [List.mem_append, List.mem_cons, List.not_mem_nil, or_false,
      not_or] at hnodup ⊢
    have hch : c ≠ h := fun heq => hnodup.1.2.1 heq.symm
    tauto
  rw [hout] at hmem
  simp only [List.mem_append, List.mem_cons, not_or] at hmem
  exact ⟨fun heq => hmem.2.2.1 heq.symm, fun heq => hmem.2.1 heq.symm⟩

/-- **Taking out an element.** -/
theorem unlink (hr : Ring next prev h l) (hc : c ∈ l) (hnc : next' (prev c) = next c)
    (hpc : prev' (next c) = prev c) (hnext : ∀ x, x ≠ prev c → x ≠ c → next' x = next x)
    (hprev : ∀ x, x ≠ next c → x ≠ c → prev' x = prev x) :
    ∃ l', Ring next' prev' h l' ∧ ∀ x, x ∈ l' ↔ x ∈ l ∧ x ≠ c := by
  obtain ⟨s, t, u, v, rfl, hout, hin⟩ := hr.around hc
  have hnodup := (List.nodup_cons.mp hr.nodup).2
  refine ⟨s ++ t, ?_, fun x => ?_⟩
  · rw [Ring, hin] at hr
    rw [Ring, hout]
    exact hr.unlink hnc hpc hnext hprev
  · rw [List.nodup_middle, List.nodup_cons] at hnodup
    rw [List.mem_append, List.mem_append, List.mem_cons]
    constructor
    · intro hx
      refine ⟨by tauto, ?_⟩
      rintro rfl
      exact hnodup.1 (List.mem_append.mpr hx)
    · rintro ⟨hx | hx | hx, hne⟩
      · exact .inl hx
      · exact absurd hx hne
      · exact .inr hx

/-- **Putting in an element** behind the head. -/
theorem push (hr : Ring next prev h l) (hc : c ∉ h :: l) (hh : next' h = c) (hcn : next' c = next h)
    (hpn : prev' (next h) = c) (hpc : prev' c = h) (hnext : ∀ x, x ≠ h → x ≠ c → next' x = next x)
    (hprev : ∀ x, x ≠ next h → x ≠ c → prev' x = prev x) : Ring next' prev' h (c :: l) := by
  obtain ⟨b, v, hv⟩ : ∃ b v, l ++ [h] = b :: v := by
    cases l with
    | nil => exact ⟨h, [], rfl⟩
    | cons b t => exact ⟨b, t ++ [h], rfl⟩
  have hthread : Threaded next prev ([] ++ h :: b :: v) := by
    rw [List.nil_append, ← hv]
    exact hr
  obtain rfl := hthread.next_eq
  have hout : c ∉ [] ++ h :: next h :: v := by
    rw [List.nil_append, ← hv, ← List.cons_append, List.mem_append, List.mem_singleton]
    rintro (hmem | rfl)
    · exact hc hmem
    · exact hc List.mem_cons_self
  have hlinked := hthread.link hout hh hpc hcn hpn hnext hprev
  rw [List.nil_append, ← hv] at hlinked
  exact hlinked

/-- **Putting another element in the place of one.** -/
theorem replace {d : α} (hr : Ring next prev h l) (hc : c ∈ l) (hd : d ∉ h :: l)
    (ha : next' (prev c) = d) (hda : prev' d = prev c) (hb : prev' (next c) = d)
    (hdb : next' d = next c) (hnext : ∀ x, x ≠ prev c → x ≠ c → x ≠ d → next' x = next x)
    (hprev : ∀ x, x ≠ next c → x ≠ c → x ≠ d → prev' x = prev x) :
    ∃ l', Ring next' prev' h l' ∧ ∀ x, x ∈ l' ↔ x = d ∨ x ∈ l ∧ x ≠ c := by
  classical
  obtain ⟨s, t, u, v, rfl, hout, hin⟩ := hr.around hc
  have hnodup := (List.nodup_cons.mp hr.nodup).2
  have hdout : d ∉ h :: (s ++ t) ++ [h] := by
    simp only [List.mem_append, List.mem_cons, List.not_mem_nil, or_false,
      not_or] at hd ⊢
    tauto
  refine ⟨s ++ d :: t, ?_, fun x => ?_⟩
  · rw [Ring, hin] at hr
    rw [Ring, hin]
    rw [hout] at hdout
    -- first the old one is taken out
    have hmid : Threaded
        (fun x => if x = prev c then next c else if x = c then next' c else next x)
        (fun x => if x = next c then prev c else if x = c then prev' c else prev x)
        (u ++ prev c :: next c :: v) :=
      hr.unlink (if_pos rfl) (if_pos rfl) (fun x hx hxc => by rw [if_neg hx, if_neg hxc])
        (fun x hx hxc => by rw [if_neg hx, if_neg hxc])
    refine hmid.link hdout ha hda hdb hb (fun x hx hxd => ?_) fun x hx hxd => ?_
    · rw [if_neg hx]
      split_ifs with hxc
      · rw [hxc]
      · exact hnext x hx hxc hxd
    · rw [if_neg hx]
      split_ifs with hxc
      · rw [hxc]
      · exact hprev x hx hxc hxd
  · rw [List.nodup_middle, List.nodup_cons, List.mem_append] at hnodup
    rw [List.mem_append, List.mem_append, List.mem_cons, List.mem_cons]
    constructor
    · rintro (hx | hx | hx)
      · refine .inr ⟨.inl hx, ?_⟩
        rintro rfl
        exact hnodup.1 (.inl hx)
      · exact .inl hx
      · refine .inr ⟨.inr (.inr hx), ?_⟩
        rintro rfl
        exact hnodup.1 (.inr hx)
    · tauto

end Ring

end Lilu
