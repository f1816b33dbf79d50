import Mathlib.Tactic

/-!
# Little endian numbers

## Main definitions

* `leBytes n v`: the number `v` in `n` bytes, the lowest first
* `leNat`: the number that some bytes stand for

## Main results

* `leNat_leBytes`: a number survives modulo what its bytes can hold
* `leBytes_add`: a number in two parts
* `leNat_inj`: as many bytes are told apart by their number
* `leNat_div_mod`: each byte of a number
-/

namespace Lilu

/-- The number `v` in `n` bytes, the lowest first. -/
def leBytes : ℕ → ℕ → List UInt8
  | 0, _ => []
  | n + 1, v => UInt8.ofNat v :: leBytes n (v / 256)

/-- The number that some bytes stand for. -/
def leNat : List UInt8 → ℕ
  | [] => 0
  | b :: bs => b.toNat + 256 * leNat bs

@[simp] theorem length_leBytes (n : ℕ) : ∀ v, (leBytes n v).length = n := by
  induction n with
  | zero => exact fun _ => rfl
  | succ n ih => exact fun v => congrArg (· + 1) (ih (v / 256))

theorem leNat_leBytes (n : ℕ) : ∀ v, leNat (leBytes n v) = v % 256 ^ n := by
  induction n with
  | zero => exact fun v => (Nat.mod_one v).symm
  | succ n ih =>
    intro v
    have hlow : (UInt8.ofNat v).toNat = v % 256 := UInt8.toNat_ofNat' ..
    rw [leBytes, leNat, ih, hlow, pow_succ, Nat.mul_comm (256 ^ n), Nat.mod_mul]

theorem leNat_lt (bs : List UInt8) : leNat bs < 256 ^ bs.length := by
  induction bs with
  | nil => simp [leNat]
  | cons b bs ih =>
    have := b.toNat_lt
    rw [leNat, List.length_cons, pow_succ]
    omega

theorem leNat_append (bs cs : List UInt8) :
    leNat (bs ++ cs) = leNat bs + 256 ^ bs.length * leNat cs := by
  induction bs with
  | nil => simp [leNat]
  | cons b bs ih =>
    rw [List.cons_append, leNat, leNat, ih, List.length_cons, pow_succ]
    ring

/-- Each byte of a number. -/
theorem leNat_div_mod (bs : List UInt8) :
    ∀ i, leNat bs / 256 ^ i % 256 = (bs[i]?.getD 0).toNat := by
  induction bs with
  | nil => simp [leNat]
  | cons b bs ih =>
    have hb := b.toNat_lt
    rintro (- | i)
    · rw [leNat, pow_zero, Nat.div_one, List.getElem?_cons_zero, Option.getD_some]
      omega
    · have hrest : (b.toNat + 256 * leNat bs) / 256 = leNat bs := by omega
      rw [leNat, pow_succ', ← Nat.div_div_eq_div_mul, hrest, ih i, List.getElem?_cons_succ]

/-- As many bytes are told apart by their number. -/
theorem leNat_inj : ∀ {bs cs : List UInt8}, bs.length = cs.length → leNat bs = leNat cs → bs = cs
  | [], [], _, _ => rfl
  | b :: bs, c :: cs, hlen, h => by
    have hb := b.toNat_lt
    have hc := c.toNat_lt
    rw [leNat, leNat] at h
    have hhead : b = c := UInt8.toNat_inj.mp (by omega)
    have htail : bs = cs := leNat_inj (Nat.succ.inj hlen) (by omega)
    rw [hhead, htail]

/-- A number in two parts. -/
theorem leBytes_add (j k : ℕ) :
    ∀ v, leBytes (j + k) v = leBytes j v ++ leBytes k (v / 256 ^ j) := by
  induction j with
  | zero =>
    intro v
    rw [Nat.zero_add, pow_zero, Nat.div_one]
    rfl
  | succ j ih =>
    intro v
    rw [Nat.add_right_comm, leBytes, ih, Nat.div_div_eq_div_mul, ← pow_succ']
    rfl

/-- What does not fit does not count. -/
theorem leBytes_mod (n v : ℕ) : leBytes n (v % 256 ^ n) = leBytes n v := by
  apply leNat_inj ((length_leBytes _ _).trans (length_leBytes _ _).symm)
  rw [leNat_leBytes, leNat_leBytes, Nat.mod_mod]

theorem leBytes_leNat {bs : List UInt8} {n : ℕ} (h : bs.length = n) :
    leBytes n (leNat bs) = bs := by
  subst h
  apply leNat_inj (length_leBytes _ _)
  rw [leNat_leBytes, Nat.mod_eq_of_lt (leNat_lt bs)]

end Lilu
