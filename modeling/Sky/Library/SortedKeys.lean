import Mathlib

/-! # Sorted keys

Keys that are numbers in big-endian bytes, and the search for one by halving: the least index at
which a monotone predicate holds. -/

namespace Sky.Library

/-! ## Big-endian bytes -/

/-- The last `n` bytes of a number, the most significant one first. -/
def putBytes : ℕ → ℕ → List UInt8
  | 0, _ => []
  | n + 1, v => putBytes n (v / 256) ++ [UInt8.ofNat v]

def ofBytes (l : List UInt8) : ℕ := l.foldl (fun v b => 256 * v + b.toNat) 0

@[simp] theorem length_putBytes (n v : ℕ) : (putBytes n v).length = n := by
  induction n generalizing v with
  | zero => rfl
  | succ n ih => rw [putBytes, List.length_append, ih, List.length_singleton]

theorem ofBytes_concat (l : List UInt8) (b : UInt8) : ofBytes (l ++ [b]) = 256 * ofBytes l + b.toNat := by
  rw [ofBytes, List.foldl_concat, ofBytes]

theorem ofBytes_putBytes (n v : ℕ) : ofBytes (putBytes n v) = v % 256 ^ n := by
  induction n generalizing v with
  | zero => rw [pow_zero, Nat.mod_one]; rfl
  | succ n ih =>
      rw [putBytes, ofBytes_concat, ih, UInt8.toNat_ofNat', pow_succ' 256 n, Nat.mod_mul]
      omega

/-! ## Binary search -/

/-- The rounds of the search between `i` and `j`. -/
def searchFrom (p : ℕ → Bool) : ℕ → ℕ → ℕ → ℕ
  | 0, i, _ => i
  | fuel + 1, i, j =>
      if i < j then
        if p ((i + j) / 2) then searchFrom p fuel i ((i + j) / 2)
        else searchFrom p fuel ((i + j) / 2 + 1) j
      else i

def search (n : ℕ) (p : ℕ → Bool) : ℕ := searchFrom p n 0 n

variable {p : ℕ → Bool} {n : ℕ}

theorem searchFrom_spec (hmono : ∀ a b, a ≤ b → b < n → p a = true → p b = true) {fuel i j : ℕ}
    (hfuel : j ≤ i + fuel) (hij : i ≤ j) (hj : j ≤ n) (hbelow : ∀ k < i, p k = false)
    (habove : ∀ k, j ≤ k → k < n → p k = true) :
    searchFrom p fuel i j ≤ n ∧ (∀ k < searchFrom p fuel i j, p k = false) ∧
      ∀ k, searchFrom p fuel i j ≤ k → k < n → p k = true := by
  induction fuel generalizing i j with
  | zero =>
      obtain rfl : i = j := by omega
      exact ⟨hj, hbelow, habove⟩
  | succ fuel ih =>
      rw [searchFrom]
      split
      · rename_i hlt
        split
        · rename_i hp
          apply ih
          · omega
          · omega
          · omega
          · exact hbelow
          · intro k hk hkn
            exact hmono _ k hk hkn hp
        · rename_i hp
          apply ih
          · omega
          · omega
          · exact hj
          · intro k hk
            by_contra hpk
            refine hp (hmono k _ (by omega) (by omega) ?_)
            simpa using hpk
          · exact habove
      · obtain rfl : i = j := by omega
        exact ⟨hj, hbelow, habove⟩

/-- Below the index that is found the predicate fails, and from it on it holds. -/
theorem search_spec (hmono : ∀ a b, a ≤ b → b < n → p a = true → p b = true) :
    search n p ≤ n ∧ (∀ k < search n p, p k = false) ∧
      ∀ k, search n p ≤ k → k < n → p k = true :=
  searchFrom_spec hmono (by omega) (Nat.zero_le n) le_rfl (by simp) (fun _ hle hlt => by omega)

end Sky.Library
