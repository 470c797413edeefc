import Mathlib.Algebra.Ring.Parity
import Mathlib.Data.Fintype.Card
import Mathlib.Data.Fintype.EquivFin
import Mathlib.Data.Nat.Factorization.Basic
import Mathlib.Data.Nat.ModEq
import Mathlib.Data.Nat.Prime.Basic
import Mathlib.Tactic.Ring

/-!
# Triangular probing

A probe sequence that starts at `h` and adds `0, 1, 2, …` modulo `n` visits `(h + tri j) % n` at
its `j`-th probe, `tri j = j * (j + 1) / 2` being the `j`-th triangular number. Whether it reaches
every slot depends on `n` alone:

* if `n` is a power of two, the first `n` probes visit the `n` slots once each
  (`exists_tri_mod_eq_of_pow_two`): two triangular numbers below `n` differ by
  `(j - i) * (j + i + 1) / 2`, and one factor is odd while the other is too small to hold all the
  factors of two of `2 * n`;
* if `n` has an odd divisor `p ≥ 3`, the triangular numbers modulo `p` repeat with period `p` and
  meet twice within a period (`tri 0` and `tri (p - 1)`), so some residue modulo `p` is never
  reached, and from every start some slot is never visited (`exists_not_visited`).
-/

namespace Triangular

/-- The `j`-th triangular number, the offset of the `j`-th probe. -/
def tri (j : Nat) : Nat := j * (j + 1) / 2

theorem two_mul_tri (j : Nat) : 2 * tri j = j * (j + 1) :=
  Nat.mul_div_cancel' (Nat.even_mul_succ_self j).two_dvd

@[simp] theorem tri_zero : tri 0 = 0 := rfl

theorem tri_succ (j : Nat) : tri (j + 1) = tri j + (j + 1) := by
  have h1 := two_mul_tri (j + 1)
  have h2 := two_mul_tri j
  have h3 : (j + 1) * (j + 1 + 1) = j * (j + 1) + 2 * (j + 1) := by ring
  omega

theorem tri_le_tri {i j : Nat} (h : i ≤ j) : tri i ≤ tri j := by
  induction h with
  | refl => exact Nat.le_refl _
  | step _ ih => rw [tri_succ]; omega

/-- Twice the gap between two triangular numbers. -/
theorem two_mul_tri_add (i d : Nat) : 2 * tri (i + d) = 2 * tri i + d * (2 * i + d + 1) := by
  rw [two_mul_tri, two_mul_tri]
  ring

section PowTwo

variable {m : Nat}

/-- Below `2 ^ m` distinct probes give distinct residues modulo `2 ^ m`. -/
theorem tri_mod_inj_of_lt {i j : Nat} (hij : i < j) (hj : j < 2 ^ m)
    (h : tri i % 2 ^ m = tri j % 2 ^ m) : False := by
  obtain ⟨d, rfl⟩ : ∃ d, j = i + d := ⟨j - i, by omega⟩
  have hgap := two_mul_tri_add i d
  have hle := tri_le_tri (Nat.le_add_right i d)
  -- `2 ^ (m + 1)` divides `d * (2 * i + d + 1)`, twice the gap
  have hdvd : 2 ^ (m + 1) ∣ d * (2 * i + d + 1) := by
    have hgap_dvd : 2 ^ m ∣ tri (i + d) - tri i := (Nat.modEq_iff_dvd' hle).mp h
    have := Nat.mul_dvd_mul_left 2 hgap_dvd
    rw [← Nat.pow_succ', show 2 * (tri (i + d) - tri i) = d * (2 * i + d + 1) by omega] at this
    exact this
  have hpos : 0 < 2 ^ m := Nat.two_pow_pos m
  have hpow : 2 ^ (m + 1) = 2 * 2 ^ m := Nat.pow_succ'
  -- the two factors have an odd sum, so one of them is odd
  rcases Nat.even_or_odd d with heven | hodd
  · have hodd' : Odd (2 * i + d + 1) := by
      rw [Nat.odd_add_one, Nat.not_even_iff_odd.symm.not, not_not]
      exact (Nat.even_add.mpr ⟨fun _ => heven, fun _ => even_two_mul i⟩)
    have := (Nat.Coprime.pow_left (m + 1) (Nat.coprime_two_left.mpr hodd')).dvd_of_dvd_mul_right hdvd
    have := Nat.le_of_dvd (by omega) this
    omega
  · have := (Nat.Coprime.pow_left (m + 1) (Nat.coprime_two_left.mpr hodd)).dvd_of_dvd_mul_left hdvd
    have := Nat.le_of_dvd (by omega) this
    omega

/-- For `2 ^ m` slots the first `2 ^ m` probes reach every residue. -/
theorem exists_tri_mod_eq_of_pow_two {r : Nat} (hr : r < 2 ^ m) :
    ∃ j < 2 ^ m, tri j % 2 ^ m = r := by
  have hpos : 0 < 2 ^ m := Nat.two_pow_pos m
  let f : Fin (2 ^ m) → Fin (2 ^ m) := fun j => ⟨tri j % 2 ^ m, Nat.mod_lt _ hpos⟩
  have hinj : Function.Injective f := by
    intro i j h
    have h : tri i % 2 ^ m = tri j % 2 ^ m := Fin.val_eq_of_eq h
    rcases Nat.lt_trichotomy i j with hlt | heq | hgt
    · exact (tri_mod_inj_of_lt hlt j.isLt h).elim
    · exact Fin.ext heq
    · exact (tri_mod_inj_of_lt hgt i.isLt h.symm).elim
  obtain ⟨j, hj⟩ := Finite.surjective_of_injective hinj ⟨r, hr⟩
  exact ⟨j, j.isLt, Fin.val_eq_of_eq hj⟩

end PowTwo

section Odd

variable {p : Nat}

/-- Modulo an odd `p` the triangular numbers have period `p`. -/
theorem tri_add_mod (hp : Odd p) (j : Nat) : tri (j + p) % p = tri j % p := by
  obtain ⟨q, rfl⟩ := hp
  have h : tri (j + (2 * q + 1)) = tri j + (2 * q + 1) * (j + q + 1) := by
    have := two_mul_tri_add j (2 * q + 1)
    have hring : (2 * q + 1) * (2 * j + (2 * q + 1) + 1) = 2 * ((2 * q + 1) * (j + q + 1)) := by
      ring
    omega
  rw [h, Nat.add_mul_mod_self_left]

theorem tri_mod_mod (hp : Odd p) (j : Nat) : tri (j % p) % p = tri j % p := by
  conv_rhs => rw [← Nat.mod_add_div j p]
  generalize j / p = k
  induction k with
  | zero => rw [Nat.mul_zero, Nat.add_zero]
  | succ k ih => rw [Nat.mul_succ, ← Nat.add_assoc, tri_add_mod hp, ih]

/-- Modulo an odd `p ≥ 3` some residue is no triangular number. -/
theorem exists_not_tri_mod (hp : Odd p) (hp3 : 3 ≤ p) : ∃ r < p, ∀ j, tri j % p ≠ r := by
  have hpos : 0 < p := by omega
  let g : Fin p → Fin p := fun j => ⟨tri j % p, Nat.mod_lt _ hpos⟩
  -- `tri 0` and `tri (p - 1) = p * (p - 1) / 2` are both `0` modulo `p`
  have hcollide : g ⟨0, hpos⟩ = g ⟨p - 1, by omega⟩ := by
    obtain ⟨q, rfl⟩ := hp
    apply Fin.ext
    show tri 0 % (2 * q + 1) = tri (2 * q + 1 - 1) % (2 * q + 1)
    have h : tri (2 * q) = (2 * q + 1) * q := by
      have := two_mul_tri (2 * q)
      have hring : 2 * q * (2 * q + 1) = 2 * ((2 * q + 1) * q) := by ring
      omega
    rw [Nat.add_sub_cancel, h, Nat.mul_mod_right, tri_zero, Nat.zero_mod]
  have hninj : ¬ Function.Injective g := fun hinj => by
    have := congrArg Fin.val (hinj hcollide)
    simp only at this
    omega
  rw [Finite.injective_iff_surjective] at hninj
  obtain ⟨r, hr⟩ := not_forall.mp hninj
  refine ⟨r, r.isLt, fun j hj => hr ⟨⟨j % p, Nat.mod_lt _ hpos⟩, Fin.ext ?_⟩⟩
  show tri (j % p) % p = r
  rw [tri_mod_mod hp, hj]

end Odd

/-- For `2 ^ m` slots the first `2 ^ m` probes from any start visit every slot. -/
theorem exists_visit_of_pow_two {m h b : Nat} (hb : b < 2 ^ m) :
    ∃ j < 2 ^ m, (h + tri j) % 2 ^ m = b := by
  have hpos : 0 < 2 ^ m := Nat.two_pow_pos m
  have ha : h % 2 ^ m < 2 ^ m := Nat.mod_lt _ hpos
  -- the residue of the offset that leads from the start to `b`
  obtain ⟨r, hr, hsum⟩ : ∃ r < 2 ^ m, (h % 2 ^ m + r) % 2 ^ m = b := by
    by_cases hab : h % 2 ^ m ≤ b
    · exact ⟨b - h % 2 ^ m, by omega, by rw [Nat.add_sub_cancel' hab, Nat.mod_eq_of_lt hb]⟩
    · refine ⟨b + 2 ^ m - h % 2 ^ m, by omega, ?_⟩
      rw [show h % 2 ^ m + (b + 2 ^ m - h % 2 ^ m) = b + 2 ^ m by omega, Nat.add_mod_right,
        Nat.mod_eq_of_lt hb]
  obtain ⟨j, hj, htri⟩ := exists_tri_mod_eq_of_pow_two hr
  exact ⟨j, hj, by rw [Nat.add_mod, htri, hsum]⟩

/-- When `n` is not a power of two, from every start `h` some slot below `n` is never visited. -/
theorem exists_not_visited {n : Nat} (hn : 0 < n) (hpow : ¬ ∃ m, n = 2 ^ m) (h : Nat) :
    ∃ b < n, ∀ j, (h + tri j) % n ≠ b := by
  obtain ⟨k, p, hp, rfl⟩ := Nat.exists_eq_two_pow_mul_odd (Nat.pos_iff_ne_zero.mp hn)
  have hp3 : 3 ≤ p := by
    obtain ⟨q, rfl⟩ := hp
    rcases q with _ | q
    · exact absurd ⟨k, by simp⟩ hpow
    · omega
  obtain ⟨r, hrp, hr⟩ := exists_not_tri_mod hp hp3
  have hdvd : p ∣ 2 ^ k * p := Dvd.intro_left _ rfl
  refine ⟨(h + r) % (2 ^ k * p), Nat.mod_lt _ hn, fun j hj => hr j ?_⟩
  -- a visit of that slot would make `tri j` equal to `r` modulo the odd part
  have hmod : (h + tri j) % p = (h + r) % p := by
    rw [← Nat.mod_mod_of_dvd (h + tri j) hdvd, hj, Nat.mod_mod_of_dvd _ hdvd]
  have htri : tri j % p = r % p := Nat.ModEq.add_left_cancel' h hmod
  rw [htri, Nat.mod_eq_of_lt hrp]

end Triangular
