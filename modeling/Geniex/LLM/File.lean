import Geniex.Lib.Bytes
import Geniex.LLM.Generate

/-!
# Saving and loading a conversation

The file holds `n_past`, the active context length, the token history, and an image of the KV
inputs of every prefill graph. `loadKVCacheFromFile_save` says what loading a saved file does.
-/

namespace Geniex

open FlatMem

variable {τ ρ I : Type} (spec : LLMSpec)

/-- The KV inputs of a graph of shard `s`, in the order of its tensor pairs. -/
def kvInputs (s : ℕ) : List KVTensor :=
  (List.range (spec.pairs s).length).flatMap fun p => [⟨s, p, true⟩, ⟨s, p, false⟩]

/-- The KV inputs of the prefill graphs, in graph order, with their byte counts. -/
def prefillImages : List (KVTensor × ℕ) :=
  (List.range spec.shardCount).flatMap fun s =>
    (List.range spec.numCl).flatMap fun clIdx =>
      (kvInputs spec s).map fun t => (t, spec.byteCount t (spec.kvLen .prefill clIdx))

/-- The bytes of a tensor's buffer. -/
def readBuffer (m : ℕ → UInt8) (n : ℕ) : List UInt8 := (List.range n).map m

/-- `memcpy(m, bytes, bytes.size())` -/
def writeBuffer (m : ℕ → UInt8) (bytes : List UInt8) : ℕ → UInt8 :=
  memcpy m (fun i => bytes.getD i 0) 0 0 bytes.length

/-- A token id, as the file has it. -/
def idBytes (id : Int32) : List UInt8 := leBytes 4 id.toUInt32.toNat

/-- The ids in a buffer of `n` tokens. -/
def idsOfBytes : ℕ → List UInt8 → List Int32
  | 0, _ => []
  | n + 1, bytes => (UInt32.ofNat (ofLeBytes (bytes.take 4))).toInt32 :: idsOfBytes n (bytes.drop 4)

/-- The largest `std::vector<int32_t>`. -/
def maxHistory : ℕ := (2 ^ 63 - 1) / 4

variable [Token τ]

/-- `saveKVCacheToFile`: the content of the file. -/
def saveKVCacheToFile (w : World τ ρ I) : List UInt8 :=
  leBytes 8 w.nPast ++ leBytes 8 w.activeClIdx ++ leBytes 8 w.tokenHistory.length ++
    w.tokenHistory.flatMap (fun t => idBytes (Token.id t)) ++
    (prefillImages spec).flatMap fun p => readBuffer (w.kv p.1) p.2

/-- The loop of `loadKVCacheFromFile` over the images: a buffer that cannot be filled from the
file is written all the same, with zeros after what was read. -/
def loadImages : List (KVTensor × ℕ) → ByteStream → KVMem → KVMem × ByteStream
  | [], f, kv => (kv, f)
  | (t, n) :: rest, f, kv =>
    let (got, f) := f.read n
    loadImages rest f
      (Function.update kv t (writeBuffer (kv t) (got ++ List.replicate (n - got.length) 0)))

/-- `loadKVCacheFromFile`, on the content of the file. -/
def loadKVCacheFromFile (file : List UInt8) : Run τ ρ I Unit := fun w =>
  let (b, f) := (ByteStream.mk file true).read 8
  let w := { w with nPast := ofLeBytes (overlay (leBytes 8 w.nPast) b) }
  let (b, f) := f.read 8
  let w := { w with activeClIdx := ofLeBytes (overlay (leBytes 8 w.activeClIdx) b) }
  let (b, f) := f.read 8
  let historySize := ofLeBytes (overlay (leBytes 8 0) b)
  if maxHistory < historySize then (.error (.readError "vector::assign"), w)
  else
    let (b, f) := f.read (historySize * 4)
    let ids := idsOfBytes historySize (b ++ List.replicate (historySize * 4 - b.length) 0)
    let (kv, f) := loadImages (prefillImages spec) f w.kv
    let w := { w with tokenHistory := ids.map Token.ofId, kv := kv }
    if f.good then (.ok (), w)
    else (.error (.readError "loadKVCacheFromFile: read error"), w)

/-! ## Reading back what was written -/

@[simp] theorem readBuffer_length (m : ℕ → UInt8) (n : ℕ) : (readBuffer m n).length = n := by
  simp [readBuffer]

theorem writeBuffer_readBuffer (m m' : ℕ → UInt8) (n i : ℕ) :
    writeBuffer m (readBuffer m' n) i = if i < n then m' i else m i := by
  unfold writeBuffer
  split_ifs with h
  · rw [memcpy_in (by omega) (by simpa using h)]
    simp [readBuffer, h]
  · exact memcpy_out (by simp; omega)

theorem idsOfBytes_append (ids : List Int32) (rest : List UInt8) :
    idsOfBytes ids.length (ids.flatMap idBytes ++ rest) = ids := by
  induction ids with
  | nil => rfl
  | cons id ids ih =>
    have hlen : (idBytes id).length = 4 := leBytes_length _ _
    have hid : (UInt32.ofNat (ofLeBytes (idBytes id))).toInt32 = id := by
      unfold idBytes
      rw [ofLeBytes_leBytes (by have := id.toUInt32.toNat_lt; omega)]
      simp
    simp only [List.flatMap_cons, List.length_cons, idsOfBytes, List.append_assoc]
    rw [List.take_append_of_le_length (by omega), List.drop_append_of_le_length (by omega),
      ← hlen, List.take_length, List.drop_length, List.nil_append, hid, ih]

/-- The images of one memory, loaded over another: each tensor ends up equal to the saved one on
the longest of its images. -/
theorem loadImages_save (kv : KVMem) (images : List (KVTensor × ℕ)) (rest : List UInt8)
    (kv₀ : KVMem) :
    (loadImages images ⟨images.flatMap (fun p => readBuffer (kv p.1) p.2) ++ rest, true⟩ kv₀).2 =
        ⟨rest, true⟩ ∧
      ∀ t i, (loadImages images
          ⟨images.flatMap (fun p => readBuffer (kv p.1) p.2) ++ rest, true⟩ kv₀).1 t i =
        if ∃ p ∈ images, p.1 = t ∧ i < p.2 then kv t i else kv₀ t i := by
  induction images generalizing kv₀ with
  | nil => simp [loadImages]
  | cons p images ih =>
    obtain ⟨t₀, n⟩ := p
    simp only [List.flatMap_cons, List.append_assoc, loadImages,
      ByteStream.read_append' (readBuffer_length (kv t₀) n).symm]
    simp only [readBuffer_length, Nat.sub_self, List.replicate_zero, List.append_nil]
    refine ⟨(ih _).1, fun t i => ?_⟩
    rw [(ih _).2]
    by_cases hex : ∃ p ∈ images, p.1 = t ∧ i < p.2
    · rw [if_pos hex, if_pos]
      obtain ⟨p, hp, h⟩ := hex
      exact ⟨p, List.mem_cons_of_mem _ hp, h⟩
    · rw [if_neg hex]
      by_cases ht : t = t₀
      · subst ht
        rw [Function.update_self, writeBuffer_readBuffer]
        have : (∃ p ∈ (t, n) :: images, p.1 = t ∧ i < p.2) ↔ i < n := by
          simp only [List.mem_cons, exists_eq_or_imp, true_and]
          exact or_iff_left hex
        simp only [this]
      · rw [Function.update_of_ne ht, if_neg]
        rintro ⟨p, hp, h⟩
        rcases List.mem_cons.mp hp with rfl | hp
        · exact ht h.1.symm
        · exact hex ⟨p, hp, h⟩

variable {spec}

theorem mem_kvInputs {s : ℕ} {t : KVTensor} :
    t ∈ kvInputs spec s ↔ t.shard = s ∧ spec.hasTensor t = true := by
  obtain ⟨sh, p, k⟩ := t
  simp only [kvInputs, List.mem_flatMap, List.mem_range, List.mem_cons, KVTensor.mk.injEq,
    List.not_mem_nil, or_false, LLMSpec.hasTensor, decide_eq_true_eq]
  constructor
  · rintro ⟨q, hq, ⟨rfl, rfl, rfl⟩ | ⟨rfl, rfl, rfl⟩⟩ <;> exact ⟨rfl, hq⟩
  · rintro ⟨rfl, hp⟩
    refine ⟨p, hp, ?_⟩
    cases k <;> simp

theorem byteCount_le {t : KVTensor} {m n : ℕ} (h : m ≤ n) :
    spec.byteCount t m ≤ spec.byteCount t n :=
  Nat.mul_le_mul_left _ (Nat.mul_le_mul_right _ h)

/-- The images cover each tensor up to its size in the prefill graph of the largest context
length. -/
theorem prefillImages_cover {t : KVTensor} {i : ℕ} :
    (∃ p ∈ prefillImages spec, p.1 = t ∧ i < p.2) ↔
      spec.hasTensor t = true ∧ i < spec.byteCount t (spec.kvLen .prefill (spec.numCl - 1)) := by
  simp only [prefillImages, List.mem_flatMap, List.mem_range, List.mem_map, mem_kvInputs]
  constructor
  · rintro ⟨_, ⟨s, _, c, hc, t', ⟨_, ht⟩, rfl⟩, rfl, hi⟩
    exact ⟨ht, lt_of_lt_of_le hi (byteCount_le (spec.kvLen_mono (by omega) (by omega)))⟩
  · rintro ⟨ht, hi⟩
    have hpos := spec.numCl_pos
    exact ⟨_, ⟨t.shard, shard_lt_of_hasTensor ht, spec.numCl - 1, by omega, t, ⟨rfl, ht⟩, rfl⟩,
      rfl, hi⟩

/-- The KV buffers after loading the file of an instance whose buffers were `saved`. -/
def loadedKV (spec : LLMSpec) (saved kv : KVMem) : KVMem := fun t i =>
  if spec.hasTensor t = true ∧ i < spec.byteCount t (spec.kvLen .prefill (spec.numCl - 1)) then
    saved t i
  else kv t i

/-- Loading a saved file, whatever follows it. -/
theorem loadKVCacheFromFile_save_append {v w : World τ ρ I} (hn : v.nPast < 2 ^ 64)
    (ha : v.activeClIdx < 2 ^ 64) (hh : v.tokenHistory.length ≤ maxHistory)
    (extra : List UInt8) :
    loadKVCacheFromFile spec (saveKVCacheToFile spec v ++ extra) w =
      (.ok (), { w with
        nPast := v.nPast
        activeClIdx := v.activeClIdx
        tokenHistory := v.tokenHistory.map fun t => Token.ofId (Token.id t)
        kv := loadedKV spec v.kv w.kv }) := by
  have hids : (v.tokenHistory.flatMap fun t => idBytes (Token.id t)).length =
      v.tokenHistory.length * 4 := by
    simp [List.length_flatMap, idBytes]
  have hflat : (v.tokenHistory.flatMap fun t => idBytes (Token.id t)) =
      (v.tokenHistory.map Token.id).flatMap idBytes := by
    simp [List.flatMap_map]
  have hsize : v.tokenHistory.length < 256 ^ 8 := by unfold maxHistory at hh; omega
  have hback := idsOfBytes_append (v.tokenHistory.map Token.id) []
  rw [List.length_map, List.append_nil, ← hflat] at hback
  have himg := loadImages_save v.kv (prefillImages spec) extra w.kv
  have hkv : (loadImages (prefillImages spec)
      ⟨(prefillImages spec).flatMap (fun p => readBuffer (v.kv p.1) p.2) ++ extra, true⟩ w.kv).1 =
      loadedKV spec v.kv w.kv := by
    funext t i
    rw [himg.2]
    simp only [prefillImages_cover, loadedKV]
  unfold loadKVCacheFromFile saveKVCacheToFile
  simp only [List.append_assoc, ByteStream.read_append' (leBytes_length 8 _).symm,
    overlay_of_length, leBytes_length, ofLeBytes_leBytes (w := 8) hn,
    ofLeBytes_leBytes (w := 8) ha, ofLeBytes_leBytes hsize, if_neg (not_lt.mpr hh),
    ByteStream.read_append' hids.symm, hids, Nat.sub_self, List.replicate_zero, List.append_nil,
    hback, hkv, himg.1, if_true, List.map_map]
  rfl

/-- Loading a saved file. -/
theorem loadKVCacheFromFile_save {v w : World τ ρ I} (hn : v.nPast < 2 ^ 64)
    (ha : v.activeClIdx < 2 ^ 64) (hh : v.tokenHistory.length ≤ maxHistory) :
    loadKVCacheFromFile spec (saveKVCacheToFile spec v) w =
      (.ok (), { w with
        nPast := v.nPast
        activeClIdx := v.activeClIdx
        tokenHistory := v.tokenHistory.map fun t => Token.ofId (Token.id t)
        kv := loadedKV spec v.kv w.kv }) := by
  rw [← List.append_nil (saveKVCacheToFile spec v)]
  exact loadKVCacheFromFile_save_append hn ha hh []

end Geniex
