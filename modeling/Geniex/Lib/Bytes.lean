import Mathlib.Tactic
import Mathlib.Data.List.GetD

/-!
# Little-endian bytes and input streams

`leBytes w n` is `n` in `w` bytes, least significant first; `ofLeBytes` reads such bytes back.
`ByteStream.read` is `std::istream::read`: a read past the end takes what is left and fails, and a
stream that has failed reads nothing.
-/

/-- `n` in `w` little-endian bytes. -/
def leBytes : ℕ → ℕ → List UInt8
  | 0, _ => []
  | w + 1, n => UInt8.ofNat n :: leBytes w (n / 256)

/-- The number that little-endian bytes stand for. -/
def ofLeBytes : List UInt8 → ℕ
  | [] => 0
  | b :: bs => b.toNat + 256 * ofLeBytes bs

@[simp] theorem leBytes_length (w n : ℕ) : (leBytes w n).length = w := by
  induction w generalizing n with
  | zero => rfl
  | succ w ih => simp [leBytes, ih]

theorem ofLeBytes_leBytes {w n : ℕ} (h : n < 256 ^ w) : ofLeBytes (leBytes w n) = n := by
  induction w generalizing n with
  | zero => simp [leBytes, ofLeBytes] at h ⊢; omega
  | succ w ih =>
    have hdiv : n / 256 < 256 ^ w := by
      rw [Nat.pow_succ] at h
      omega
    simp only [leBytes, ofLeBytes, ih hdiv, UInt8.toNat_ofNat']
    omega

theorem leBytes_ofLeBytes (bs : List UInt8) : leBytes bs.length (ofLeBytes bs) = bs := by
  induction bs with
  | nil => rfl
  | cons b bs ih =>
    have hb := b.toNat_lt
    have hhead : UInt8.ofNat (b.toNat + 256 * ofLeBytes bs) = b := by
      apply UInt8.toNat_inj.mp
      rw [UInt8.toNat_ofNat']
      omega
    have hdiv : (b.toNat + 256 * ofLeBytes bs) / 256 = ofLeBytes bs := by omega
    rw [List.length_cons, ofLeBytes, leBytes, hhead, hdiv, ih]

/-- Bytes `got` read into a field that held `old`. -/
def overlay (old got : List UInt8) : List UInt8 := got ++ old.drop got.length

theorem overlay_of_length {old got : List UInt8} (h : got.length = old.length) :
    overlay old got = got := by
  simp [overlay, h]

/-- A field of which some bytes are read keeps its value if they are the bytes it has. -/
theorem ofLeBytes_overlay_iff {w n : ℕ} {got : List UInt8} (hn : n < 256 ^ w)
    (hw : got.length ≤ w) : ofLeBytes (overlay (leBytes w n) got) = n ↔ got <+: leBytes w n := by
  have hlen : (overlay (leBytes w n) got).length = w := by
    simp only [overlay, List.length_append, List.length_drop, leBytes_length]
    omega
  constructor
  · intro h
    have hback := leBytes_ofLeBytes (overlay (leBytes w n) got)
    rw [hlen, h] at hback
    exact ⟨(leBytes w n).drop got.length, hback.symm⟩
  · rintro ⟨rest, hrest⟩
    have hdrop : (leBytes w n).drop got.length = rest := by rw [← hrest, List.drop_left]
    rw [overlay, hdrop, hrest, ofLeBytes_leBytes hn]

/-- An input stream: the bytes left, and whether it is still good. -/
structure ByteStream where
  rest : List UInt8
  good : Bool

namespace ByteStream

/-- `read(buf, n)`. -/
def read (s : ByteStream) (n : ℕ) : List UInt8 × ByteStream :=
  if s.good then (s.rest.take n, ⟨s.rest.drop n, n ≤ s.rest.length⟩) else ([], s)

/-- `seekg(n, std::ios::cur)`; a stream that has failed stays where it is. -/
def skip (s : ByteStream) (n : ℕ) : ByteStream :=
  if s.good then { s with rest := s.rest.drop n } else s

/-- Reading back a piece that was written first. -/
@[simp] theorem read_append (a b : List UInt8) :
    (ByteStream.mk (a ++ b) true).read a.length = (a, ⟨b, true⟩) := by
  simp [read]

theorem read_append' {a b : List UInt8} {n : ℕ} (h : n = a.length) :
    (ByteStream.mk (a ++ b) true).read n = (a, ⟨b, true⟩) := by
  rw [h, read_append]

theorem read_length_le (s : ByteStream) (n : ℕ) : (s.read n).1.length ≤ n := by
  unfold read
  split_ifs <;> simp

/-- The stream has taken `k` bytes of `file`, or failed for lack of them. -/
structure At (file : List UInt8) (k : ℕ) (s : ByteStream) : Prop where
  good : s.good = true ↔ k ≤ file.length
  rest : s.good = true → s.rest = file.drop k

theorem at_zero (file : List UInt8) : At file 0 ⟨file, true⟩ :=
  ⟨by simp, fun _ => by simp⟩

namespace At

variable {file : List UInt8} {k : ℕ} {s : ByteStream}

theorem read (h : At file k s) (n : ℕ) : At file (k + n) (s.read n).2 := by
  by_cases hg : s.good = true
  · have hk := h.good.mp hg
    refine ⟨?_, fun _ => ?_⟩
    · simp only [ByteStream.read, hg, if_true, h.rest hg, List.length_drop, decide_eq_true_eq]
      omega
    · simp [ByteStream.read, hg, h.rest hg]
  · have hk := mt h.good.mpr hg
    refine ⟨?_, fun hg' => ?_⟩
    · simp only [ByteStream.read, hg]
      simp only [Bool.false_eq_true, if_false, hg, false_iff]
      omega
    · simp [ByteStream.read, hg] at hg'

/-- A read into a buffer of zeros. -/
theorem read_padded (h : At file k s) (n : ℕ) :
    (s.read n).1 ++ List.replicate (n - (s.read n).1.length) 0 =
      (List.range n).map fun i => file.getD (k + i) 0 := by
  apply List.ext_getElem
  · have hle := s.read_length_le n
    simp only [List.length_append, List.length_replicate, List.length_map, List.length_range]
    omega
  · intro i hi hi'
    have hin : i < n := by simpa using hi'
    simp only [List.getElem_map, List.getElem_range, List.getElem_append]
    by_cases hg : s.good = true
    · simp only [ByteStream.read, hg, if_true, h.rest hg, List.length_take, List.length_drop,
        List.getElem_take, List.getElem_drop, List.getElem_replicate]
      split_ifs with hlt
      · rw [List.getD_eq_getElem]
      · rw [List.getD_eq_default]
        omega
    · have hk := mt h.good.mpr hg
      rw [List.getD_eq_default _ _ (by omega)]
      simp [ByteStream.read, hg]

/-- What a read delivers. -/
theorem read_fst (h : At file k s) (n : ℕ) : (s.read n).1 = (file.drop k).take n := by
  by_cases hg : s.good = true
  · simp [ByteStream.read, hg, h.rest hg]
  · have hk := mt h.good.mpr hg
    rw [List.drop_eq_nil_of_le (by omega)]
    simp [ByteStream.read, hg]

end At

end ByteStream
