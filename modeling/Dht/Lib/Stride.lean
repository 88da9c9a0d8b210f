/-
# Loops with an index that wraps around

`for (i = 0; i < size; i += step)` with an index modulo some number. Where the last step
does not wrap around, the loop visits the multiples of the step below `size`. Where it
does, the index starts again from some small number, and the loop goes on until it
happens to hit one of the few numbers from `size` on. The numbers it can hit are the
multiples of a greatest common divisor, so it leaves exactly if the last of these is
large enough.
-/

import Dht.Lib.Loop
import Mathlib.Data.Int.GCD

namespace Stride

universe u v

variable {modulus size step : ℕ}

/-! ## Residues of multiples -/

/-- A multiple of the common divisor below the modulus leaves room for one more. -/
theorem add_gcd_le {index : ℕ} (hdvd : Nat.gcd step modulus ∣ index) (hlt : index < modulus) :
    index + Nat.gcd step modulus ≤ modulus := by
  have hrest : Nat.gcd step modulus ∣ modulus - index :=
    Nat.dvd_sub (Nat.gcd_dvd_right step modulus) hdvd
  have hle := Nat.le_of_dvd (by omega) hrest
  omega

/-- The largest such multiple is reached. -/
theorem exists_mul_mod_eq (step : ℕ) (hpos : 0 < modulus) :
    ∃ count, count * step % modulus = modulus - Nat.gcd step modulus := by
  have hdvd := Nat.gcd_dvd_right step modulus
  by_cases hlt : Nat.gcd step modulus < modulus
  · obtain ⟨count, -, hcount⟩ := Nat.exists_mul_mod_eq_gcd hlt
    obtain ⟨parts, hparts⟩ := hdvd
    refine ⟨count * (parts - 1), ?_⟩
    have hscaled : count * (parts - 1) * step = (parts - 1) * (step * count) := by
      rw [Nat.mul_comm count, Nat.mul_assoc, Nat.mul_comm count]
    have hlast : (parts - 1) * Nat.gcd step modulus = modulus - Nat.gcd step modulus := by
      rw [Nat.sub_mul, Nat.one_mul, Nat.mul_comm parts, ← hparts]
    have hgcd := Nat.gcd_pos_of_pos_right step hpos
    rw [hscaled, ← Nat.mul_mod_mod, hcount, hlast]
    exact Nat.mod_eq_of_lt (by omega)
  · refine ⟨0, ?_⟩
    rw [Nat.zero_mul, Nat.zero_mod]
    have hle := Nat.le_of_dvd hpos hdvd
    omega

/-! ## The loop -/

variable {σ : Type u} {ρ : Type v}

/-- One turn: the body sees the index, and the result is made when the loop leaves. -/
def turn (modulus size step : ℕ) (body : ℕ → σ → σ) (leave : σ → ρ) (state : ℕ × σ) :
    (ℕ × σ) ⊕ ρ :=
  if state.1 < size then .inl ((state.1 + step) % modulus, body state.1 state.2)
  else .inr (leave state.2)

variable {body : ℕ → σ → σ} {leave : σ → ρ}

theorem turn_of_lt {index : ℕ} (hinside : index < size) (acc : σ) :
    turn modulus size step body leave (index, acc) =
      .inl ((index + step) % modulus, body index acc) := if_pos hinside

theorem turn_of_le {index : ℕ} (houtside : size ≤ index) (acc : σ) :
    turn modulus size step body leave (index, acc) = .inr (leave acc) :=
  if_neg (not_lt.mpr houtside)

/-- The loop leaves if some number of steps leads past `size`. -/
theorem exists_returns_of_le {index : ℕ} (hindex : index < modulus) (count : ℕ)
    (hreach : size ≤ (index + count * step) % modulus) (acc : σ) :
    ∃ result, Loop.Returns (turn modulus size step body leave) (index, acc) result := by
  induction count generalizing index acc with
  | zero =>
      rw [Nat.zero_mul, Nat.add_zero, Nat.mod_eq_of_lt hindex] at hreach
      exact ⟨leave acc, Loop.returns_of_inr (turn_of_le hreach acc)⟩
  | succ count ih =>
      by_cases hinside : index < size
      · have hnext : size ≤ ((index + step) % modulus + count * step) % modulus := by
          rw [Nat.mod_add_mod, Nat.add_assoc, Nat.add_comm step, ← Nat.succ_mul]
          exact hreach
        obtain ⟨result, hresult⟩ :=
          ih (Nat.mod_lt _ (Nat.zero_lt_of_lt hindex)) hnext (body index acc)
        exact ⟨result, (Loop.returns_iff_of_inl (turn_of_lt hinside acc)).mpr hresult⟩
      · exact ⟨leave acc, Loop.returns_of_inr (turn_of_le (not_lt.mp hinside) acc)⟩

/-- **Termination.** A loop from zero leaves exactly if there is room for one common divisor
of step and modulus behind `size`. -/
theorem exists_returns_iff (hpos : 0 < modulus) (acc : σ) :
    (∃ result, Loop.Returns (turn modulus size step body leave) (0, acc) result) ↔
      size + Nat.gcd step modulus ≤ modulus := by
  constructor
  · rintro ⟨result, hreturns⟩
    -- the index stays below the modulus and a multiple of the divisor
    refine hreturns.of_invariant (fun state => state.1 < modulus ∧ Nat.gcd step modulus ∣ state.1)
      (fun _ => size + Nat.gcd step modulus ≤ modulus) ?_ ?_ ⟨hpos, Nat.dvd_zero _⟩
    · rintro ⟨index, acc⟩ next ⟨-, hdvd⟩ hturn
      by_cases hinside : index < size
      · rw [turn_of_lt hinside] at hturn
        cases hturn
        refine ⟨Nat.mod_lt _ hpos, ?_⟩
        rw [Nat.dvd_mod_iff (Nat.gcd_dvd_right step modulus)]
        exact Nat.dvd_add hdvd (Nat.gcd_dvd_left step modulus)
      · rw [turn_of_le (not_lt.mp hinside)] at hturn
        cases hturn
    · rintro ⟨index, acc⟩ left ⟨hlt, hdvd⟩ hturn
      by_cases hinside : index < size
      · rw [turn_of_lt hinside] at hturn
        cases hturn
      · have hroom := add_gcd_le hdvd hlt
        dsimp only at hroom
        omega
  · intro hroom
    obtain ⟨count, hcount⟩ := exists_mul_mod_eq step hpos
    apply exists_returns_of_le hpos count
    rw [Nat.zero_add, hcount]
    omega

end Stride
