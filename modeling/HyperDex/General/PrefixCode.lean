import HyperDex.General.Tape
import Mathlib.Algebra.Group.Nat.Defs

/-!
# Self-delimiting codes

A code reads its own value back off the front of any longer input, so a list of
values is the concatenation of their codes. Reading such an input one value per
call gives a tape, which ends cleanly where the input ends and negatively where
the rest is not a code.
-/
namespace HyperDex.General

structure PrefixCode (σ α : Type*) where
  encode : α → List σ
  decode : List σ → Option (α × List σ)
  decode_encode : ∀ a rest, decode (encode a ++ rest) = some (a, rest)
  encode_ne_nil : ∀ a, encode a ≠ []

namespace PrefixCode

variable {σ α β : Type*}

def prod (c : PrefixCode σ α) (d : PrefixCode σ β) : PrefixCode σ (α × β) where
  encode p := c.encode p.1 ++ d.encode p.2
  decode input := (c.decode input).bind fun a =>
    (d.decode a.2).map fun b => ((a.1, b.1), b.2)
  decode_encode := by
    rintro ⟨a, b⟩ rest
    simp [List.append_assoc, c.decode_encode, d.decode_encode]
  encode_ne_nil p h := c.encode_ne_nil p.1 (List.append_eq_nil_iff.mp h).1

def comap (c : PrefixCode σ α) (f : β → α) (g : α → β) (hgf : ∀ b, g (f b) = b) :
    PrefixCode σ β where
  encode b := c.encode (f b)
  decode input := (c.decode input).map fun a => (g a.1, a.2)
  decode_encode b rest := by simp [c.decode_encode, hgf]
  encode_ne_nil b := c.encode_ne_nil (f b)

/-- Reads one value per call; what cannot be read ends the tape with a negative result. -/
def tape (c : PrefixCode σ α) (junk : α) : ℕ → List σ → Tape α
  | 0, _ => []
  | _ + 1, [] => []
  | n + 1, s :: input =>
    match c.decode (s :: input) with
    | some (a, rest) => (1, a) :: tape c junk n rest
    | none => [(-1, junk)]

theorem tape_encode_append (c : PrefixCode σ α) (junk a : α) (rest : List σ) (n : ℕ) :
    c.tape junk (n + 1) (c.encode a ++ rest) = (1, a) :: c.tape junk n rest := by
  rcases List.exists_cons_of_ne_nil (c.encode_ne_nil a) with ⟨s, input, hs⟩
  have hdecode := c.decode_encode a rest
  rw [hs] at hdecode ⊢
  rw [List.cons_append] at hdecode ⊢
  rw [tape, hdecode]

/-- A concatenation of codes is delivered value by value. -/
theorem tape_delivers (c : PrefixCode σ α) (junk : α) (xs : List α) (n : ℕ) (hn : xs.length ≤ n) :
    (c.tape junk n (xs.flatMap c.encode)).Delivers xs := by
  induction xs generalizing n with
  | nil => cases n <;> exact ⟨rfl, rfl⟩
  | cons x xs ih =>
    obtain ⟨m, rfl⟩ : ∃ m, n = m + 1 := ⟨n - 1, by simp at hn; omega⟩
    rw [List.flatMap_cons, tape_encode_append]
    rcases ih m (by simpa using hn) with ⟨hproduced, hending⟩
    exact ⟨congrArg (x :: ·) hproduced, hending⟩

theorem length_le_flatMap_encode (c : PrefixCode σ α) (xs : List α) :
    xs.length ≤ (xs.flatMap c.encode).length := by
  induction xs with
  | nil => simp
  | cons x xs ih =>
    have hx : 0 < (c.encode x).length := List.length_pos_iff.mpr (c.encode_ne_nil x)
    simp only [List.flatMap_cons, List.length_append, List.length_cons]
    omega

def toLittleEndian : (width n : ℕ) → List UInt8
  | 0, _ => []
  | w + 1, n => UInt8.ofNat n :: toLittleEndian w (n / 256)

def ofLittleEndian : List UInt8 → ℕ
  | [] => 0
  | b :: bs => b.toNat + 256 * ofLittleEndian bs

@[simp] theorem length_toLittleEndian (w n : ℕ) : (toLittleEndian w n).length = w := by
  induction w generalizing n with
  | zero => rfl
  | succ w ih => simp [toLittleEndian, ih]

theorem ofLittleEndian_toLittleEndian (w n : ℕ) (hn : n < 256 ^ w) :
    ofLittleEndian (toLittleEndian w n) = n := by
  induction w generalizing n with
  | zero =>
    have hzero : n = 0 := by simpa using hn
    simp [toLittleEndian, ofLittleEndian, hzero]
  | succ w ih =>
    have hdiv : n / 256 < 256 ^ w := by
      rw [Nat.div_lt_iff_lt_mul (by decide)]
      rwa [Nat.pow_succ] at hn
    rw [toLittleEndian, ofLittleEndian, ih (n / 256) hdiv, UInt8.toNat_ofNat']
    omega

/-- The eight bytes of a word, least significant first. -/
def word64 : PrefixCode UInt8 UInt64 where
  encode n := toLittleEndian 8 n.toNat
  decode input :=
    if 8 ≤ input.length then some (UInt64.ofNat (ofLittleEndian (input.take 8)), input.drop 8)
    else none
  decode_encode n rest := by
    have hlen : (toLittleEndian 8 n.toNat).length = 8 := length_toLittleEndian 8 n.toNat
    rw [if_pos (by simp), List.take_left' hlen, List.drop_left' hlen,
      ofLittleEndian_toLittleEndian 8 n.toNat (by simpa using n.toNat_lt)]
    simp
  encode_ne_nil n h := by simpa using congrArg List.length h

/-- The largest four-byte number, reserved to continue a length in the next four bytes. -/
def maxWord32 : ℕ := 2 ^ 32 - 1

def encodeLength (n : ℕ) : List UInt8 :=
  (List.replicate (n / maxWord32) [255, 255, 255, 255]).flatten ++
    toLittleEndian 4 (n % maxWord32)

def decodeLength : List UInt8 → Option (ℕ × List UInt8)
  | a :: b :: c :: d :: rest =>
    let n := ofLittleEndian [a, b, c, d]
    if n = maxWord32 then (decodeLength rest).map fun k => (maxWord32 + k.1, k.2)
    else some (n, rest)
  | _ => none

theorem decodeLength_word (n : ℕ) (hn : n < maxWord32) (rest : List UInt8) :
    decodeLength (toLittleEndian 4 n ++ rest) = some (n, rest) := by
  have hvalue := ofLittleEndian_toLittleEndian 4 n (by simp only [maxWord32] at hn; omega)
  have hne : n ≠ maxWord32 := Nat.ne_of_lt hn
  simp only [toLittleEndian] at hvalue ⊢
  simp only [List.cons_append, List.nil_append, decodeLength, hvalue, if_neg hne]

theorem decodeLength_encodeLength (n : ℕ) (rest : List UInt8) :
    decodeLength (encodeLength n ++ rest) = some (n, rest) := by
  have hfull (k r : ℕ) (hr : r < maxWord32) :
      decodeLength ((List.replicate k [255, 255, 255, 255]).flatten ++
        (toLittleEndian 4 r ++ rest)) = some (maxWord32 * k + r, rest) := by
    induction k with
    | zero => simpa using decodeLength_word r hr rest
    | succ k ih =>
      have hmax : ofLittleEndian [255, 255, 255, 255] = maxWord32 := by decide
      rw [List.replicate_succ, List.flatten_cons, List.append_assoc]
      simp only [List.cons_append, List.nil_append, decodeLength, hmax, if_true, ih,
        Option.map_some]
      rw [Nat.mul_succ, Nat.add_right_comm, Nat.add_comm _ maxWord32]
  rw [encodeLength, List.append_assoc, hfull _ _ (Nat.mod_lt _ (by decide)), Nat.div_add_mod]

/-- Arbitrary bytes behind their length. -/
def block : PrefixCode UInt8 (List UInt8) where
  encode b := encodeLength b.length ++ b
  decode input := (decodeLength input).bind fun n =>
    if n.1 ≤ n.2.length then some (n.2.take n.1, n.2.drop n.1) else none
  decode_encode b rest := by
    rw [List.append_assoc, decodeLength_encodeLength]
    simp
  encode_ne_nil b h := by
    have hlen := congrArg List.length h
    simp [encodeLength] at hlen

end PrefixCode
end HyperDex.General
