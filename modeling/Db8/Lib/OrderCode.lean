import Db8.Lib.LexOrder

/-!
# Lib.OrderCode

Encodings of values as digit strings that keep an order and can be read back from a stream.

* `OrderCodeAt c enc a b`   — in front of any continuations, the codes of `a` and `b` compare as
  `c a b` does, and the continuations decide only when `a` and `b` are equal under `c`.
* `OrderCodeAt.terminated`  — a list written element by element before an end mark that is below
  the first digit of every element is compared as the list of elements.
* `lexCompare_bigEndian`    — fixed-width big-endian numerals compare as the numbers do.

`OrderCodeAt` gives order preservation (`OrderCodeAt.compare_eq`) and unique readability
(`OrderCodeAt.eq_of_append_eq`) at once, and it is closed under concatenation, so the code of a
compound value needs no argument about where its parts end.
-/

namespace Lib

variable {α γ β : Type*} [LinearOrder β]

def OrderCodeAt (c : α → α → Ordering) (enc : α → List β) (a b : α) : Prop :=
  ∀ s t, lexCompare (enc a ++ s) (enc b ++ t) = (c a b).then (lexCompare s t)

theorem lexCompare_append_of_length_eq {u v : List β} (h : u.length = v.length) (s t : List β) :
    lexCompare (u ++ s) (v ++ t) = (lexCompare u v).then (lexCompare s t) := by
  induction u generalizing v with
  | nil =>
    have hv : v = [] := List.length_eq_zero_iff.mp h.symm
    subst hv
    rfl
  | cons x u ih =>
    cases v with
    | nil => simp at h
    | cons y v =>
      have hlen : u.length = v.length := by simpa using h
      simp only [List.cons_append, lexCompare_cons_cons, ih hlen, Ordering.then_assoc]

namespace OrderCodeAt

variable {c : α → α → Ordering} {enc : α → List β} {a b : α}

theorem compare_eq (h : OrderCodeAt c enc a b) : lexCompare (enc a) (enc b) = c a b := by
  simpa using h [] []

theorem lt_iff (h : OrderCodeAt c enc a b) : enc a < enc b ↔ c a b = .lt := by
  rw [← lexCompare_eq_lt, h.compare_eq]

theorem le_iff (h : OrderCodeAt c enc a b) : enc a ≤ enc b ↔ c a b ≠ .gt := by
  rw [← not_lt, ← lexCompare_eq_gt, h.compare_eq]

theorem eq_of_append_eq (h : OrderCodeAt c enc a b) {s t : List β} (he : enc a ++ s = enc b ++ t) :
    c a b = .eq ∧ s = t := by
  have := h s t
  rw [lexCompare_eq_eq.mpr he, eq_comm, Ordering.then_eq_eq, lexCompare_eq_eq] at this
  exact this

/-- However the first code goes on, it is below the second only if the values are. -/
theorem append_lt_iff (h : OrderCodeAt c enc a b) (r : List β) : enc a ++ r < enc b ↔ c a b = .lt := by
  have hcmp := h r []
  rw [List.append_nil] at hcmp
  rw [← lexCompare_eq_lt, hcmp]
  cases hc : c a b <;> cases r <;> simp

theorem le_append_iff (h : OrderCodeAt c enc a b) (r : List β) : enc b ≤ enc a ++ r ↔ c a b ≠ .lt := by
  rw [← not_lt, h.append_lt_iff]

theorem eq_of_isPrefix (h : OrderCodeAt c enc a b) {r : List β} (hp : enc b <+: enc a ++ r) :
    c a b = .eq := by
  obtain ⟨t, ht⟩ := hp
  exact (h.eq_of_append_eq ht.symm).1

theorem of_length_eq (hlen : (enc a).length = (enc b).length)
    (hcmp : lexCompare (enc a) (enc b) = c a b) : OrderCodeAt c enc a b := by
  intro s t
  rw [lexCompare_append_of_length_eq hlen, hcmp]

theorem of_head_lt {x y : β} {u v : List β} (ha : enc a = x :: u) (hb : enc b = y :: v)
    (hxy : x < y) (hc : c a b = .lt) : OrderCodeAt c enc a b := by
  intro s t
  simp [ha, hb, hxy.cmp_eq_lt, hc]

theorem of_head_gt {x y : β} {u v : List β} (ha : enc a = x :: u) (hb : enc b = y :: v)
    (hxy : y < x) (hc : c a b = .gt) : OrderCodeAt c enc a b := by
  intro s t
  simp [ha, hb, hxy.cmp_eq_gt, hc]

/-- A pair written as its first part, then its second. -/
theorem pair {c' : γ → γ → Ordering} {enc' : γ → List β} {p q : α × γ}
    (h₁ : OrderCodeAt c enc p.1 q.1) (h₂ : OrderCodeAt c' enc' p.2 q.2) :
    OrderCodeAt (fun p q => (c p.1 q.1).then (c' p.2 q.2)) (fun p => enc p.1 ++ enc' p.2) p q := by
  intro s t
  simp only [List.append_assoc]
  rw [h₁, h₂, Ordering.then_assoc]

/-- A list written element by element and closed by a mark below every element's first digit. -/
theorem terminated {e : β} {as bs : List α}
    (hfirst : ∀ a ∈ as ++ bs, ∃ x u, enc a = x :: u ∧ e < x)
    (h : ∀ a ∈ as, ∀ b ∈ bs, OrderCodeAt c enc a b) (s t : List β) :
    lexCompare (as.flatMap enc ++ e :: s) (bs.flatMap enc ++ e :: t) =
      (lexBy c as bs).then (lexCompare s t) := by
  induction as generalizing bs with
  | nil =>
    cases bs with
    | nil => simp
    | cons b bs =>
      obtain ⟨y, v, hb, hy⟩ := hfirst b (by simp)
      simp [hb, hy.cmp_eq_lt]
  | cons a as ih =>
    cases bs with
    | nil =>
      obtain ⟨x, u, ha, hx⟩ := hfirst a (by simp)
      simp [ha, hx.cmp_eq_gt]
    | cons b bs =>
      have htail := @ih bs (fun x hx => hfirst x (by simp at hx ⊢; tauto))
        (fun x hx y hy => h x (by simp [hx]) y (by simp [hy]))
      simp only [List.flatMap_cons, List.append_assoc, lexBy_cons_cons, Ordering.then_assoc]
      rw [h a (by simp) b (by simp), htail]

end OrderCodeAt

/-! ## Big-endian numerals -/

/-- The `w` low digits of `n` in base `B`, the most significant first. -/
def bigEndian (B : Nat) [NeZero B] : Nat → Nat → List (Fin B)
  | 0, _ => []
  | w + 1, n => Fin.ofNat B (n / B ^ w) :: bigEndian B w n

section BigEndian

variable {B : Nat}

@[simp] theorem bigEndian_length [NeZero B] (w n : Nat) : (bigEndian B w n).length = w := by
  induction w with
  | zero => rfl
  | succ w ih => simp [bigEndian, ih]

/-- The leading digit splits a number; the number with the greater one is the greater. -/
theorem lt_of_digit_lt {P m n : Nat} (h : m / P % B < n / P % B) : m % (P * B) < n % (P * B) := by
  have hP : 0 < P := by
    rcases Nat.eq_zero_or_pos P with rfl | hP
    · simp at h
    · exact hP
  rw [Nat.mod_mul, Nat.mod_mul]
  have hm := Nat.mod_lt m hP
  have hle : P * (m / P % B + 1) ≤ P * (n / P % B) := Nat.mul_le_mul_left P h
  rw [Nat.mul_add] at hle
  omega

variable [NeZero B]

theorem lexCompare_bigEndian (w m n : Nat) :
    lexCompare (bigEndian B w m) (bigEndian B w n) = cmp (m % B ^ w) (n % B ^ w) := by
  induction w with
  | zero => simp [bigEndian, Nat.mod_one]
  | succ w ih =>
    have hdigit : cmp (Fin.ofNat B (m / B ^ w)) (Fin.ofNat B (n / B ^ w)) =
        cmp (m / B ^ w % B) (n / B ^ w % B) := rfl
    rw [bigEndian, bigEndian, lexCompare_cons_cons, hdigit, ih, Nat.pow_succ]
    rcases lt_trichotomy (m / B ^ w % B) (n / B ^ w % B) with h | h | h
    · rw [h.cmp_eq_lt, (lt_of_digit_lt h).cmp_eq_lt]; rfl
    · rw [h.cmp_eq_eq, Ordering.then, Nat.mod_mul, Nat.mod_mul, h]
      simp only [cmp, cmpUsing, Nat.add_lt_add_iff_right]
    · rw [h.cmp_eq_gt, (lt_of_digit_lt h).cmp_eq_gt]; rfl

theorem lexCompare_bigEndian_of_lt {w m n : Nat} (hm : m < B ^ w) (hn : n < B ^ w) :
    lexCompare (bigEndian B w m) (bigEndian B w n) = cmp m n := by
  rw [lexCompare_bigEndian, Nat.mod_eq_of_lt hm, Nat.mod_eq_of_lt hn]

theorem bigEndian_append_lt_iff {w m n : Nat} (hm : m < B ^ w) (hn : n < B ^ w) {s t : List (Fin B)} :
    bigEndian B w m ++ s < bigEndian B w n ++ t ↔ m < n ∨ m = n ∧ s < t := by
  have hlen : (bigEndian B w m).length = (bigEndian B w n).length := by
    rw [bigEndian_length, bigEndian_length]
  rw [← lexCompare_eq_lt, lexCompare_append_of_length_eq hlen, lexCompare_bigEndian_of_lt hm hn, Ordering.then_eq_lt,
    cmp_eq_lt_iff, cmp_eq_eq_iff, lexCompare_eq_lt]

end BigEndian

end Lib
