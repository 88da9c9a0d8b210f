/-
# Bit trees

Numbers of a few bits are coded through a tree of probabilities: the bits already coded,
behind a leading one, are the index of the probability of the next. `rc_bittree` begins
with the highest bit and `rc_bittree_reverse` with the lowest; `rc_direct` uses no
probabilities. On the other side there are no functions: the decoder has the same loops
written out, with the index in `symbol` and the number gathered on the way.

For each of the three, what the encoder queues answers what the decoder asks, and the
decoder ends with the number that was encoded.
-/

import Dht.Liblzma.RangeDecoder

namespace Dht

variable {ι : Type}

/-! ## Encoding -/

/-- The loop of `rc_bittree` with `bit_count` bits left. -/
def rcBittreeLoop (tree : ℕ → ι) (symbol : ℕ) : ℕ → ℕ → List (RcContext ι × Bool)
  | 0, _ => []
  | count + 1, modelIndex =>
      let bit := (symbol >>> count) &&& 1
      (.prob (tree modelIndex), bit = 1) ::
        rcBittreeLoop tree symbol count ((modelIndex <<< 1) + bit)

/-- `rc_bittree`. `tree` is the array `probs` points to. -/
def rcBittree (tree : ℕ → ι) (bitCount symbol : ℕ) : List (RcContext ι × Bool) :=
  rcBittreeLoop tree symbol bitCount 1

/-- The loop of `rc_bittree_reverse`. -/
def rcBittreeReverseLoop (tree : ℕ → ι) : ℕ → ℕ → ℕ → List (RcContext ι × Bool)
  | 0, _, _ => []
  | count + 1, symbol, modelIndex =>
      let bit := symbol &&& 1
      (.prob (tree modelIndex), bit = 1) ::
        rcBittreeReverseLoop tree count (symbol >>> 1) ((modelIndex <<< 1) + bit)

/-- `rc_bittree_reverse`. -/
def rcBittreeReverse (tree : ℕ → ι) (bitCount symbol : ℕ) : List (RcContext ι × Bool) :=
  rcBittreeReverseLoop tree bitCount symbol 1

/-- `rc_direct` of the encoder. -/
def rcDirect (value : ℕ) : ℕ → List (RcContext ι × Bool)
  | 0 => []
  | count + 1 => (.direct, (value >>> count) &&& 1 = 1) :: rcDirect value count

/-! ## Decoding -/

/-- Some `rc_bit` in a row, each indexed by `symbol`. -/
def readBittree (tree : ℕ → ι) : ℕ → ℕ → Dialogue (RcContext ι) ℕ
  | 0, symbol => .done symbol
  | count + 1, symbol =>
      .ask (.prob (tree symbol)) fun bit => readBittree tree count ((symbol <<< 1) + bit.toNat)

/-- The loops of `SEQ_DIST_MODEL` and `SEQ_ALIGN`: a bit that is set adds `1 << offset` to
the number. -/
def readBittreeReverse (tree : ℕ → ι) : ℕ → ℕ → ℕ → ℕ → Dialogue (RcContext ι) ℕ
  | 0, _, _, number => .done number
  | count + 1, symbol, offset, number =>
      .ask (.prob (tree symbol)) fun bit =>
        readBittreeReverse tree count ((symbol <<< 1) + bit.toNat) (offset + 1)
          (number + bit.toNat <<< offset)

/-- The loop of `SEQ_DIRECT`. -/
def readDirect : ℕ → ℕ → Dialogue (RcContext ι) ℕ
  | 0, number => .done number
  | count + 1, number => .ask .direct fun bit => readDirect count ((number <<< 1) + bit.toNat)

/-! ## What is encoded is decoded -/

theorem toNat_and_one (number : ℕ) : (decide (number &&& 1 = 1)).toNat = number % 2 := by
  rw [Nat.and_one_is_mod]
  rcases Nat.mod_two_eq_zero_or_one number with hbit | hbit <;> simp [hbit]

/-- The number gathered from the highest bit on. -/
theorem gather_high (front number count : ℕ) :
    ((front <<< 1) + (number >>> count) % 2) * 2 ^ count + number % 2 ^ count =
      front * 2 ^ (count + 1) + number % 2 ^ (count + 1) := by
  rw [Nat.shiftLeft_eq, Nat.shiftRight_eq_div_pow, Nat.mod_pow_succ]
  ring

theorem readBittree_follows (tree : ℕ → ι) (symbol count modelIndex : ℕ)
    (rest : List (RcContext ι × Bool)) :
    (readBittree tree count modelIndex).Follows
      (rcBittreeLoop tree symbol count modelIndex ++ rest)
      (modelIndex * 2 ^ count + symbol % 2 ^ count) rest := by
  induction count generalizing modelIndex with
  | zero =>
      rw [pow_zero, Nat.mul_one, Nat.mod_one]
      exact .done _ _
  | succ count ih =>
      have hnext := ih ((modelIndex <<< 1) + (symbol >>> count) % 2)
      rw [gather_high] at hnext
      rw [readBittree, rcBittreeLoop, List.cons_append]
      refine .ask ?_
      rwa [toNat_and_one, Nat.and_one_is_mod]

theorem readBittreeReverse_follows (tree : ℕ → ι) (symbol count modelIndex offset number : ℕ)
    (rest : List (RcContext ι × Bool)) :
    (readBittreeReverse tree count modelIndex offset number).Follows
      (rcBittreeReverseLoop tree count symbol modelIndex ++ rest)
      (number + symbol % 2 ^ count * 2 ^ offset) rest := by
  induction count generalizing symbol modelIndex offset number with
  | zero =>
      rw [pow_zero, Nat.mod_one, Nat.zero_mul, Nat.add_zero]
      exact .done _ _
  | succ count ih =>
      have hnext := ih (symbol >>> 1) ((modelIndex <<< 1) + symbol % 2) (offset + 1)
        (number + (symbol % 2) <<< offset)
      have hgather : number + (symbol % 2) <<< offset +
          symbol >>> 1 % 2 ^ count * 2 ^ (offset + 1) =
          number + symbol % 2 ^ (count + 1) * 2 ^ offset := by
        rw [pow_succ' 2 count, Nat.mod_mul, Nat.shiftLeft_eq, Nat.shiftRight_eq_div_pow, pow_one]
        ring
      rw [hgather] at hnext
      rw [readBittreeReverse, rcBittreeReverseLoop, List.cons_append]
      refine .ask ?_
      rwa [toNat_and_one, Nat.and_one_is_mod]

theorem readDirect_follows (value count number : ℕ) (rest : List (RcContext ι × Bool)) :
    (readDirect count number).Follows (rcDirect value count ++ rest)
      (number * 2 ^ count + value % 2 ^ count) rest := by
  induction count generalizing number with
  | zero =>
      rw [pow_zero, Nat.mul_one, Nat.mod_one]
      exact .done _ _
  | succ count ih =>
      have hnext := ih ((number <<< 1) + (value >>> count) % 2)
      rw [gather_high] at hnext
      rw [readDirect, rcDirect, List.cons_append]
      refine .ask ?_
      rwa [toNat_and_one]

end Dht
