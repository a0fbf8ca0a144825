import Mathlib.Data.List.Basic
import Mathlib.Algebra.Order.Group.Nat
import Mathlib.Data.Nat.Bitwise

namespace CgxLayer

abbrev Bytes := List UInt8

namespace Bytes

def bigEndian : ℕ → ℕ → Bytes
  | 0, _ => []
  | w + 1, v => bigEndian w (v / 256) ++ [UInt8.ofNat v]

def ordered (little : Bool) (bs : Bytes) : Bytes := if little then bs.reverse else bs

def encode (little : Bool) (w v : ℕ) : Bytes := ordered little (bigEndian w v)

def decode (little : Bool) (bs : Bytes) : ℕ :=
  (ordered little bs).foldl (fun v c => (v <<< 8) ||| c.toNat) 0

def readAt (file : Bytes) (pos n : ℕ) : Bytes := (file.drop pos).take n

-- what a file has after its end reads as zeros once something is written behind it
def overwrite (file : Bytes) (pos : ℕ) (bs : Bytes) : Bytes :=
  (file.take pos).rightpad pos 0 ++ (bs ++ file.drop (pos + bs.length))

theorem length_bigEndian (w v : ℕ) : (bigEndian w v).length = w := by
  induction w generalizing v with
  | zero => rfl
  | succ w ih => simp [bigEndian, ih]

theorem ordered_ordered (little : Bool) (bs : Bytes) : ordered little (ordered little bs) = bs := by
  cases little <;> simp [ordered]

theorem length_encode (little : Bool) (w v : ℕ) : (encode little w v).length = w := by
  cases little <;> simp [encode, ordered, length_bigEndian]

theorem foldl_bigEndian (w v : ℕ) (hv : v < 256 ^ w) :
    (bigEndian w v).foldl (fun v c => (v <<< 8) ||| c.toNat) 0 = v := by
  induction w generalizing v with
  | zero =>
    rw [pow_zero] at hv
    simp only [bigEndian, List.foldl_nil]
    omega
  | succ w ih =>
    have hdiv : v / 256 < 256 ^ w := by
      apply Nat.div_lt_of_lt_mul
      rwa [pow_succ'] at hv
    have hbyte : (UInt8.ofNat v).toNat = v % 256 := by simp
    have hlt : v % 256 < 2 ^ 8 := Nat.mod_lt v (by omega)
    rw [bigEndian, List.foldl_append, ih _ hdiv, List.foldl_cons, List.foldl_nil, hbyte,
      ← Nat.shiftLeft_add_eq_or_of_lt hlt, Nat.shiftLeft_eq]
    omega

theorem decode_encode (little : Bool) (w v : ℕ) (hv : v < 256 ^ w) :
    decode little (encode little w v) = v := by
  rw [decode, encode, ordered_ordered, foldl_bigEndian w v hv]

theorem readAt_append (xs ys : Bytes) (k n : ℕ) :
    readAt (xs ++ ys) (xs.length + k) n = readAt ys k n := by
  rw [readAt, readAt, ← List.drop_drop, List.drop_left]

theorem readAt_append_left (xs ys : Bytes) (k n : ℕ) (h : k + n ≤ xs.length) :
    readAt (xs ++ ys) k n = readAt xs k n := by
  rw [readAt, readAt, List.drop_append_of_le_length (by omega), List.take_append_of_le_length]
  rw [List.length_drop]
  omega

theorem length_rightpad_take (file : Bytes) (pos : ℕ) : ((file.take pos).rightpad pos 0).length = pos := by
  rw [List.length_rightpad, List.length_take]
  omega

theorem rightpad_take {file : Bytes} {pos : ℕ} (h : pos ≤ file.length) :
    (file.take pos).rightpad pos 0 = file.take pos := by
  have hfull : pos - (file.take pos).length = 0 := by
    rw [List.length_take]
    omega
  rw [List.rightpad, hfull]
  exact List.append_nil _

theorem overwrite_append (xs ys : Bytes) (k : ℕ) (bs : Bytes) :
    overwrite (xs ++ ys) (xs.length + k) bs = xs ++ overwrite ys k bs := by
  have htake : (xs ++ ys).take (xs.length + k) = xs ++ ys.take k := List.take_length_add_append k
  have hdrop : (xs ++ ys).drop (xs.length + k + bs.length) = ys.drop (k + bs.length) := by
    rw [Nat.add_assoc, List.drop_length_add_append]
  have hpad : (xs ++ ys.take k).rightpad (xs.length + k) 0 = xs ++ (ys.take k).rightpad k 0 := by
    rw [List.rightpad, List.rightpad, List.length_append, Nat.add_sub_add_left, List.append_assoc]
  rw [overwrite, overwrite, htake, hdrop, hpad, List.append_assoc]

theorem length_overwrite (file : Bytes) (pos : ℕ) (bs : Bytes) :
    (overwrite file pos bs).length = max file.length (pos + bs.length) := by
  rw [overwrite, List.length_append, List.length_append, length_rightpad_take, List.length_drop]
  omega

theorem readAt_overwrite (file : Bytes) (pos : ℕ) (bs : Bytes) :
    readAt (overwrite file pos bs) pos bs.length = bs := by
  have hread := readAt_append ((file.take pos).rightpad pos 0) (bs ++ file.drop (pos + bs.length)) 0 bs.length
  rw [length_rightpad_take, Nat.add_zero] at hread
  rw [overwrite, hread, readAt, List.drop_zero, List.take_left]

theorem readAt_overwrite_of_le (file : Bytes) (pos k n : ℕ) (bs : Bytes) (h : k + n ≤ pos)
    (hpos : pos ≤ file.length) : readAt (overwrite file pos bs) k n = readAt file k n := by
  have hlen : k + n ≤ (file.take pos).length := by
    rw [List.length_take]
    omega
  have hfile := readAt_append_left (file.take pos) (file.drop pos) k n hlen
  rw [List.take_append_drop] at hfile
  rw [overwrite, rightpad_take hpos, readAt_append_left _ _ _ _ hlen, hfile]

theorem getElem?_overwrite_of_lt (file : Bytes) (pos i : ℕ) (bs : Bytes) (h : i < pos)
    (hpos : pos ≤ file.length) : (overwrite file pos bs)[i]? = file[i]? := by
  rw [overwrite, rightpad_take hpos, List.getElem?_append_left, List.getElem?_take_of_lt h]
  rw [List.length_take]
  omega

theorem getElem?_overwrite_of_ge (file : Bytes) (pos i : ℕ) (bs : Bytes) (h : pos + bs.length ≤ i) :
    (overwrite file pos bs)[i]? = file[i]? := by
  have hlen := length_rightpad_take file pos
  rw [overwrite, List.getElem?_append_right (by omega), List.getElem?_append_right (by omega), hlen,
    List.getElem?_drop]
  congr 1
  omega

theorem getElem?_overwrite (file : Bytes) (pos i : ℕ) (bs : Bytes)
    (h : i < pos ∨ pos + bs.length ≤ i) (hpos : pos ≤ file.length) :
    (overwrite file pos bs)[i]? = file[i]? := by
  rcases h with h | h
  · exact getElem?_overwrite_of_lt file pos i bs h hpos
  · exact getElem?_overwrite_of_ge file pos i bs h

end Bytes

end CgxLayer
