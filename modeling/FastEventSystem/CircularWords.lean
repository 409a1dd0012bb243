import Mathlib.Data.BitVec

/-!
# Counters in words which wrap around

The indices of the vendored queue are unsigned words; they only grow, and wrap
around. Two of them are compared by the sign of their difference. A counter of
the model is the number of increments so far, and is read as a word wherever the
code decides something.
-/

namespace FastEventSystem.CircularWords

variable {w : ℕ}

/-- `details::circular_less_than`. -/
def circularLessThan (a b : BitVec w) : Bool := decide (1#w <<< (w-1) < a-b)

/-- A counter as the word which holds it. -/
def word (w n : ℕ) : BitVec w := BitVec.ofNat w n

/-- Half of the range of a word. -/
def half (w : ℕ) : ℕ := 2^(w-1)

/-- Twice a half is the whole range. -/
theorem two_mul_half (hw : 0 < w) : 2*half w=2^w := by
  rw [half,←pow_succ']
  congr 1
  omega

/-- The comparison looks at the difference alone. -/
theorem circularLessThan_iff (hw : 0 < w) (a b : BitVec w) :
    circularLessThan a b=true ↔ half w < (a-b).toNat := by
  have hshift : (1#w <<< (w-1)).toNat=half w := by
    rw [BitVec.toNat_shiftLeft,BitVec.toNat_ofNat,Nat.shiftLeft_eq,half]
    have hone : 1%2^w=1 := Nat.mod_eq_of_lt (Nat.one_lt_two_pow (by omega))
    rw [hone,one_mul]
    exact Nat.mod_eq_of_lt (Nat.pow_lt_pow_right Nat.one_lt_two (by omega))
  rw [circularLessThan,decide_eq_true_iff,BitVec.lt_def,hshift]

/-- The two forms of the comparison in `dequeue` and `dequeue_bulk` agree. -/
theorem circularLessThan_zero (a b : BitVec w) :
    circularLessThan 0 (b-a)=circularLessThan a b := by
  unfold circularLessThan
  rw [zero_sub,neg_sub]

/-- Words add as counters do. -/
theorem word_add (m n : ℕ) : word w (m+n)=word w m+word w n := BitVec.ofNat_add m n

/-- The word of a difference. -/
theorem word_sub {m n : ℕ} (h : n ≤ m) : word w m-word w n=word w (m-n) := by
  rw [sub_eq_iff_eq_add,←word_add,Nat.sub_add_cancel h]

/-- A counter which is not ahead of another by more than half the range is seen
as less only when it is. -/
theorem lt_of_circularLessThan (hw : 0 < w) {m n : ℕ} (hnear : m ≤ n+half w)
    (h : circularLessThan (word w m) (word w n)=true) : m < n := by
  by_contra hge
  push Not at hge
  rw [circularLessThan_iff hw,word_sub hge,word,BitVec.toNat_ofNat] at h
  have hle := Nat.mod_le (m-n) (2^w)
  omega

/-- A counter behind another by less than half the range is seen as less. -/
theorem circularLessThan_of_lt (hw : 0 < w) {m n : ℕ} (hlt : m < n) (hnear : n < m+half w) :
    circularLessThan (word w m) (word w n)=true := by
  have hrange := two_mul_half hw
  have hpos : 0 < half w := Nat.two_pow_pos _
  have hneg : word w m-word w n=-word w (n-m) := by
    rw [←word_sub hlt.le,neg_sub]
  rw [circularLessThan_iff hw,hneg,BitVec.toNat_neg,word,BitVec.toNat_ofNat,
    Nat.mod_eq_of_lt (by omega : n-m < 2^w),Nat.mod_eq_of_lt (by omega)]
  omega

/-- A counter within the range behind another is seen as less only when it is
behind by less than half the range. -/
theorem lt_add_half_of_circularLessThan (hw : 0 < w) {m n : ℕ} (hle : m ≤ n) (hnear : n < m+2^w)
    (h : circularLessThan (word w m) (word w n)=true) : n < m+half w := by
  have hrange := two_mul_half hw
  have hneg : word w m-word w n=-word w (n-m) := by
    rw [←word_sub hle,neg_sub]
  rw [circularLessThan_iff hw,hneg,BitVec.toNat_neg,word,BitVec.toNat_ofNat,
    Nat.mod_eq_of_lt (by omega : n-m < 2^w)] at h
  by_contra hge
  have hmod : 2^w-(n-m) ≤ half w := by omega
  have hle' := Nat.mod_le (2^w-(n-m)) (2^w)
  omega

end FastEventSystem.CircularWords
