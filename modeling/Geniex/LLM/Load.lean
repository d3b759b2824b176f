import Geniex.LLM.History

/-!
# What loading does to a state

`loadKVCacheFromFile_eq` gives the state after loading any bytes, in terms of the bytes.

* `load_save_roundTrip`: loading a saved conversation restores it, and takes the whole file.
* `loadAllOrNothing_iff`: for which files and states a load is all or nothing.
-/

namespace Geniex

open FlatMem

variable {τ ρ I : Type} (spec : LLMSpec)

/-! ## The parts of a file -/

/-- The eight bytes from `off` on, with zeros beyond the end of the file. -/
def wordAt (file : List UInt8) (off : ℕ) : ℕ :=
  ofLeBytes ((List.range 8).map fun i => file.getD (off + i) 0)

def fileNPast (file : List UInt8) : ℕ := wordAt file 0

def fileClIdx (file : List UInt8) : ℕ := wordAt file 8

def fileHistorySize (file : List UInt8) : ℕ := wordAt file 16

/-- The token ids after the header, with zeros beyond the end of the file. -/
def fileIds (file : List UInt8) : List Int32 :=
  idsOfBytes (fileHistorySize file)
    ((List.range (fileHistorySize file * 4)).map fun i => file.getD (24 + i) 0)

/-- Where the images start. -/
def imagesStart (file : List UInt8) : ℕ := 24 + fileHistorySize file * 4

/-- The bytes of images. -/
def imagesSize (images : List (KVTensor × ℕ)) : ℕ := (images.map Prod.snd).sum

/-- The file has the history that its header counts, and all images. -/
def FileComplete (file : List UInt8) : Prop :=
  fileHistorySize file ≤ maxHistory ∧
    imagesStart file + imagesSize (prefillImages spec) ≤ file.length

instance (file : List UInt8) : Decidable (FileComplete spec file) := by
  unfold FileComplete
  infer_instance

/-- What images whose bytes are `bytes` put into byte `i` of a tensor: the last image counts. -/
def imageByte : List (KVTensor × ℕ) → (ℕ → UInt8) → KVTensor → ℕ → Option UInt8
  | [], _, _, _ => none
  | (t₀, n) :: rest, bytes, t, i =>
    (imageByte rest (fun j => bytes (n + j)) t i).or
      (if t₀ = t ∧ i < n then some (bytes i) else none)

/-! ## Loading any file -/

theorem leBytes_zero (w : ℕ) : leBytes w 0 = List.replicate w 0 := by
  induction w with
  | zero => rfl
  | succ w ih => simp [leBytes, ih, List.replicate_succ]

/-- A word read into a field of zeros. -/
theorem overlay_zero {file : List UInt8} {k : ℕ} {f : ByteStream} (h : ByteStream.At file k f) :
    ofLeBytes (overlay (leBytes 8 0) (f.read 8).1) = wordAt file k := by
  unfold wordAt
  rw [← h.read_padded 8, overlay, leBytes_zero, List.drop_replicate]

/-- The loop over the images takes their bytes off the stream. -/
theorem loadImages_at {file : List UInt8} (images : List (KVTensor × ℕ)) {k : ℕ} {f : ByteStream}
    (h : ByteStream.At file k f) (kv : KVMem) :
    ByteStream.At file (k + imagesSize images) (loadImages images f kv).2 := by
  induction images generalizing k f kv with
  | nil => exact h
  | cons p images ih =>
    obtain ⟨t, n⟩ := p
    have hsize : imagesSize ((t, n) :: images) = n + imagesSize images := by simp [imagesSize]
    rw [hsize, ← Nat.add_assoc]
    exact ih (h.read n) _

/-- What the loop over the images leaves in a byte. -/
theorem loadImages_apply {file : List UInt8} (images : List (KVTensor × ℕ)) {k : ℕ}
    {f : ByteStream} (h : ByteStream.At file k f) (kv : KVMem) (t : KVTensor) (i : ℕ) :
    (loadImages images f kv).1 t i =
      (imageByte images (fun j => file.getD (k + j) 0) t i).getD (kv t i) := by
  induction images generalizing k f kv with
  | nil => rfl
  | cons p images ih =>
    obtain ⟨t₀, n⟩ := p
    unfold loadImages imageByte
    rw [ih (h.read n), Option.getD_or, h.read_padded]
    simp only [Nat.add_assoc]
    by_cases ht : t₀ = t
    · subst ht
      rw [Function.update_self]
      congr 1
      unfold writeBuffer
      by_cases hi : i < n
      · rw [if_pos ⟨rfl, hi⟩, memcpy_in (by omega) (by simpa using hi)]
        simp [List.getD, hi]
      · rw [if_neg (by tauto), memcpy_out (by simp; omega)]
        rfl
    · rw [Function.update_of_ne (Ne.symm ht), if_neg (by tauto)]
      rfl

/-- No image covers the byte. -/
theorem imageByte_eq_none_iff {images : List (KVTensor × ℕ)} {bytes : ℕ → UInt8} {t : KVTensor}
    {i : ℕ} : imageByte images bytes t i = none ↔ ∀ p ∈ images, p.1 = t → p.2 ≤ i := by
  induction images generalizing bytes with
  | nil => simp [imageByte]
  | cons p images ih =>
    obtain ⟨t₀, n⟩ := p
    unfold imageByte
    rw [Option.or_eq_none_iff, ih, List.forall_mem_cons, and_comm]
    simp

/-- The last image that covers the byte counts. -/
theorem imageByte_eq_some_iff {images : List (KVTensor × ℕ)} {bytes : ℕ → UInt8} {t : KVTensor}
    {i : ℕ} {b : UInt8} :
    imageByte images bytes t i = some b ↔
      ∃ before n after, images = before ++ (t, n) :: after ∧ i < n ∧
        (∀ p ∈ after, p.1 = t → p.2 ≤ i) ∧ bytes (imagesSize before + i) = b := by
  induction images generalizing bytes with
  | nil => simp [imageByte]
  | cons p images ih =>
    obtain ⟨t₀, m⟩ := p
    unfold imageByte
    rw [Option.or_eq_some_iff, ih, imageByte_eq_none_iff]
    constructor
    · rintro (⟨before, n, after, rfl, hi, hafter, hb⟩ | ⟨hnone, hfirst⟩)
      · refine ⟨(t₀, m) :: before, n, after, rfl, hi, hafter, ?_⟩
        rw [← hb, imagesSize, List.map_cons, List.sum_cons, Nat.add_assoc]
        rfl
      · split_ifs at hfirst with hcover
        obtain ⟨rfl, hi⟩ := hcover
        refine ⟨[], m, images, rfl, hi, hnone, ?_⟩
        rw [← Option.some.inj hfirst]
        simp [imagesSize]
    · rintro ⟨before, n, after, heq, hi, hafter, rfl⟩
      cases before with
      | nil =>
        obtain ⟨hp, rfl⟩ := List.cons.inj heq
        obtain ⟨rfl, rfl⟩ := Prod.mk.inj hp
        right
        refine ⟨hafter, ?_⟩
        rw [if_pos ⟨rfl, hi⟩]
        simp [imagesSize]
      | cons q before =>
        obtain ⟨rfl, rfl⟩ := List.cons.inj heq
        left
        refine ⟨before, n, after, rfl, hi, hafter, ?_⟩
        rw [imagesSize, imagesSize, List.map_cons, List.sum_cons, Nat.add_assoc]

variable {spec}
variable [Token τ]

/-- Loading any bytes: the counters keep the bytes that the file does not have, and the history
and the images are read with zeros beyond the end of the file. -/
theorem loadKVCacheFromFile_eq (file : List UInt8) (w : World τ ρ I) :
    loadKVCacheFromFile spec file w =
      if maxHistory < fileHistorySize file then
        (.error (.readError "vector::assign"), { w with
          nPast := ofLeBytes (overlay (leBytes 8 w.nPast) (file.take 8))
          activeClIdx := ofLeBytes (overlay (leBytes 8 w.activeClIdx) ((file.drop 8).take 8)) })
      else
        (if FileComplete spec file then .ok ()
          else .error (.readError "loadKVCacheFromFile: read error"), { w with
          nPast := ofLeBytes (overlay (leBytes 8 w.nPast) (file.take 8))
          activeClIdx := ofLeBytes (overlay (leBytes 8 w.activeClIdx) ((file.drop 8).take 8))
          tokenHistory := (fileIds file).map Token.ofId
          kv := fun t i => (imageByte (prefillImages spec)
            (fun j => file.getD (imagesStart file + j) 0) t i).getD (w.kv t i) }) := by
  -- the streams after the three words, after the history and after the images
  have h₀ := ByteStream.at_zero file
  unfold loadKVCacheFromFile
  have hb₁ := h₀.read_fst 8
  have h₁ := h₀.read 8
  generalize (ByteStream.mk file true).read 8 = p₁ at hb₁ h₁ ⊢
  obtain ⟨b₁, f₁⟩ := p₁
  have hb₂ := h₁.read_fst 8
  have h₂ := h₁.read 8
  simp only at hb₂ h₂ ⊢
  generalize f₁.read 8 = p₂ at hb₂ h₂ ⊢
  obtain ⟨b₂, f₂⟩ := p₂
  have hsize := overlay_zero h₂
  have h₃ := h₂.read 8
  simp only at hsize h₃ ⊢
  generalize f₂.read 8 = p₃ at hsize h₃ ⊢
  obtain ⟨b₃, f₃⟩ := p₃
  have hids := h₃.read_padded (fileHistorySize file * 4)
  have h₄ := h₃.read (fileHistorySize file * 4)
  simp only at hb₁ hb₂ hsize hids h₄ ⊢
  rw [show ofLeBytes (overlay (leBytes 8 0) b₃) = fileHistorySize file from hsize]
  generalize f₃.read (fileHistorySize file * 4) = p₄ at hids h₄ ⊢
  obtain ⟨b₄, f₄⟩ := p₄
  have h₅ := loadImages_at (prefillImages spec) h₄ w.kv
  have hkv : (loadImages (prefillImages spec) f₄ w.kv).1 = fun t i =>
      (imageByte (prefillImages spec) (fun j => file.getD (imagesStart file + j) 0) t i).getD
        (w.kv t i) := funext fun t => funext fun i => loadImages_apply _ h₄ w.kv t i
  generalize loadImages (prefillImages spec) f₄ w.kv = p₅ at hkv h₅ ⊢
  obtain ⟨kv, f₅⟩ := p₅
  simp only at hids hkv h₅ ⊢
  rw [hb₁, hb₂, hids, hkv]
  split_ifs with hmax hgood hcomplete hcomplete
  · rfl
  · rfl
  · exact absurd ⟨not_lt.mp hmax, h₅.good.mp hgood⟩ hcomplete
  · exact absurd (h₅.good.mpr hcomplete.2) hgood
  · rfl

/-! ## Loading a saved conversation -/

theorem saveKVCacheToFile_length (v : World τ ρ I) :
    (saveKVCacheToFile spec v).length =
      24 + v.tokenHistory.length * 4 + imagesSize (prefillImages spec) := by
  have hids : (v.tokenHistory.flatMap fun t => idBytes (Token.id t)).length =
      v.tokenHistory.length * 4 := by
    simp [List.length_flatMap, idBytes]
  have himages : ((prefillImages spec).flatMap fun p => readBuffer (v.kv p.1) p.2).length =
      imagesSize (prefillImages spec) := by
    simp [List.length_flatMap, imagesSize]
  unfold saveKVCacheToFile
  simp only [List.length_append, leBytes_length, hids, himages]

theorem wordAt_take {file : List UInt8} {n off : ℕ} (h : off + 8 ≤ n) :
    wordAt (file.take n) off = wordAt file off := by
  unfold wordAt
  congr 1
  apply List.map_congr_left
  intro i hi
  have hi8 : i < 8 := List.mem_range.mp hi
  rw [List.getD_eq_getElem?_getD, List.getD_eq_getElem?_getD, List.getElem?_take_of_lt (by omega)]

/-- The word that stands after `before`. -/
theorem wordAt_append {before after : List UInt8} {n : ℕ} (hn : n < 256 ^ 8) :
    wordAt (before ++ (leBytes 8 n ++ after)) before.length = n := by
  have hword : (List.range 8).map (fun i =>
      (before ++ (leBytes 8 n ++ after)).getD (before.length + i) 0) = leBytes 8 n := by
    apply List.ext_getElem (by simp)
    intro i hi hi'
    rw [List.getElem_map, List.getElem_range, List.getD_append_right _ _ _ _ (by omega),
      Nat.add_sub_cancel_left, List.getD_append _ _ _ _ hi', List.getD_eq_getElem _ _ hi']
  unfold wordAt
  rw [hword, ofLeBytes_leBytes hn]

/-- A saved file, cut off anywhere, is not complete. -/
theorem not_complete_take {v : World τ ρ I} (hh : v.tokenHistory.length ≤ maxHistory) {n : ℕ}
    (hn : n < (saveKVCacheToFile spec v).length) :
    ¬FileComplete spec ((saveKVCacheToFile spec v).take n) := by
  rintro ⟨-, hle⟩
  have hsize : v.tokenHistory.length < 256 ^ 8 := by unfold maxHistory at hh; omega
  rw [List.length_take_of_le hn.le] at hle
  unfold imagesStart at hle
  by_cases h24 : n < 24
  · omega
  · have hword : wordAt (saveKVCacheToFile spec v) 16 = v.tokenHistory.length := by
      unfold saveKVCacheToFile
      rw [List.append_assoc, List.append_assoc]
      exact wordAt_append hsize
    have hcount : fileHistorySize ((saveKVCacheToFile spec v).take n) = v.tokenHistory.length := by
      unfold fileHistorySize
      rw [wordAt_take (by omega), hword]
    rw [hcount] at hle
    rw [saveKVCacheToFile_length] at hn
    omega

variable {env : Env Int32 ρ I}

/-- A conversation saved between operations and loaded by any instance of the same specification:
the counters, the history and the KV columns of the history are those that were saved. The file is
taken whole: bytes after it make no difference, and no part of it is enough. -/
theorem load_save_roundTrip {v : World Int32 ρ I} (h : Reachable spec env v)
    (w : World Int32 ρ I) :
    (∃ w', (∀ extra, loadKVCacheFromFile spec (saveKVCacheToFile spec v ++ extra) w =
        (.ok (), w')) ∧
      w'.nPast = v.nPast ∧ w'.activeClIdx = v.activeClIdx ∧ w'.tokenHistory = v.tokenHistory ∧
      ∀ t r c b, spec.hasTensor t = true → r < spec.rows t → c < v.nPast →
        c < spec.kvLen .prefill v.activeClIdx → b < spec.tokenSize t →
        w'.kv t (cell (spec.kvLen .prefill v.activeClIdx) (spec.tokenSize t) r c b) =
          v.kv t (cell (spec.kvLen .prefill v.activeClIdx) (spec.tokenSize t) r c b)) ∧
    ∀ n < (saveKVCacheToFile spec v).length, ∃ msg w',
      loadKVCacheFromFile spec ((saveKVCacheToFile spec v).take n) w =
        (.error (.readError msg), w') := by
  have hc := h.counted
  have hmax := spec.maxCl_lt
  have hcl := spec.numCl_le
  have hhist : v.tokenHistory.length ≤ maxHistory := by
    have := hc.le
    rw [hc.size]
    unfold maxHistory
    omega
  constructor
  · refine ⟨_, fun extra => loadKVCacheFromFile_save_append (by have := hc.le; omega)
      (by have := hc.active; omega) hhist extra, rfl, rfl, List.map_id _, ?_⟩
    intro t r c b ht hr _ hck hb
    have hlt := cell_lt hr hck hb
    have hle : spec.byteCount t (spec.kvLen .prefill v.activeClIdx) ≤
        spec.byteCount t (spec.kvLen .prefill (spec.numCl - 1)) :=
      byteCount_le (spec.kvLen_mono (by have := hc.active; omega)
        (by have := spec.numCl_pos; omega))
    exact if_pos ⟨ht, hlt.trans_le hle⟩
  · intro n hn
    rw [loadKVCacheFromFile_eq]
    split_ifs with hbig hcomplete
    · exact ⟨_, _, rfl⟩
    · exact absurd hcomplete (not_complete_take hhist hn)
    · exact ⟨_, _, rfl⟩

/-- Two prompt tokens and a decoded one, loaded by a new instance. -/
theorem load_save_tiny : ∃ w', loadKVCacheFromFile (tinySpec [4] 2 1)
    (saveKVCacheToFile (tinySpec [4] 2 1) (tinyRun (tinySpec [4] 2 1) (tinyEnv 1 1) [0, 0] 1).2)
      (tinyWorld (tinySpec [4] 2 1)) = (.ok (), w') ∧ w'.nPast = 3 := by
  have hreach := tinyRun_reachable (tinySpec [4] 2 1) (tinyEnv 1 1) [0, 0] 1 (by decide +kernel)
  obtain ⟨w', hload, hn, -⟩ := (load_save_roundTrip hreach (tinyWorld (tinySpec [4] 2 1))).1
  have h := hload []
  rw [List.append_nil] at h
  exact ⟨w', h, hn.trans (by decide +kernel)⟩

/-! ## Loading any file: all or nothing -/

/-- A load that throws leaves the counters, the history and the KV bytes as they were; one that
succeeds leaves counters that agree with each other and with the context lengths. -/
def AllOrNothing (spec : LLMSpec) (file : List UInt8) (w : World τ ρ I) : Prop :=
  match loadKVCacheFromFile spec file w with
  | (.ok (), w') => w'.activeClIdx < spec.numCl ∧ w'.tokenHistory.length = w'.nPast ∧
      w'.nPast ≤ spec.cl w'.activeClIdx - spec.seqLenPrefill
  | (.error _, w') => w'.nPast = w.nPast ∧ w'.activeClIdx = w.activeClIdx ∧
      w'.tokenHistory = w.tokenHistory ∧ w'.kv = w.kv

/-- The header is one that a resting instance of the specification could have. -/
structure HeaderValid (spec : LLMSpec) (file : List UInt8) : Prop where
  clIdx : fileClIdx file < spec.numCl
  history : fileHistorySize file = fileNPast file
  fits : fileNPast file ≤ spec.cl (fileClIdx file) - spec.seqLenPrefill

/-- What an incomplete file has is what the instance has already, and where the file ends before
its history or its images do, the instance has zeros. If the header counts more tokens than a
vector can hold, nothing is read after the header. -/
structure Repeats (spec : LLMSpec) (file : List UInt8) (w : World τ ρ I) : Prop where
  nPast : file.take 8 <+: leBytes 8 w.nPast
  activeClIdx : (file.drop 8).take 8 <+: leBytes 8 w.activeClIdx
  tokenHistory : fileHistorySize file ≤ maxHistory →
    (fileIds file).map Token.ofId = w.tokenHistory
  /-- The last image that covers a byte has the byte that the instance has. -/
  kv : fileHistorySize file ≤ maxHistory → ∀ before t n after i,
    prefillImages spec = before ++ (t, n) :: after → i < n → (∀ p ∈ after, p.1 = t → p.2 ≤ i) →
      file.getD (imagesStart file + (imagesSize before + i)) 0 = w.kv t i

theorem idsOfBytes_length (n : ℕ) (bytes : List UInt8) : (idsOfBytes n bytes).length = n := by
  induction n generalizing bytes with
  | zero => rfl
  | succ n ih => simp [idsOfBytes, ih]

/-- A word that the file has in full replaces the field. -/
theorem wordAt_eq {file : List UInt8} (off : ℕ) {n : ℕ} (h : off + 8 ≤ file.length) :
    ofLeBytes (overlay (leBytes 8 n) ((file.drop off).take 8)) = wordAt file off := by
  have hlen : ((file.drop off).take 8).length = 8 := by
    simp only [List.length_take, List.length_drop]
    omega
  rw [overlay_of_length (by rw [hlen, leBytes_length])]
  unfold wordAt
  congr 1
  apply List.ext_getElem (by simpa using hlen)
  intro i hi hi'
  have hi8 : i < 8 := by simpa using hi'
  rw [List.getElem_map, List.getElem_range, List.getElem_take, List.getElem_drop,
    List.getD_eq_getElem _ _ (by omega)]

/-- The images leave a KV memory alone if and only if they repeat it. -/
theorem imageByte_getD_iff {images : List (KVTensor × ℕ)} {bytes : ℕ → UInt8} {kv : KVMem} :
    (fun t i => (imageByte images bytes t i).getD (kv t i)) = kv ↔
      ∀ before t n after i, images = before ++ (t, n) :: after → i < n →
        (∀ p ∈ after, p.1 = t → p.2 ≤ i) → bytes (imagesSize before + i) = kv t i := by
  constructor
  · intro h before t n after i heq hi hafter
    have hb : imageByte images bytes t i = some (bytes (imagesSize before + i)) :=
      imageByte_eq_some_iff.mpr ⟨before, n, after, heq, hi, hafter, rfl⟩
    have hti := congrFun (congrFun h t) i
    simp only [hb, Option.getD_some] at hti
    exact hti
  · intro h
    funext t i
    cases hb : imageByte images bytes t i with
    | none => rfl
    | some b =>
      obtain ⟨before, n, after, heq, hi, hafter, rfl⟩ := imageByte_eq_some_iff.mp hb
      exact h before t n after i heq hi hafter

/-- A load is all or nothing exactly when the file is complete and has a valid header, or is
incomplete and repeats the state of the instance. -/
theorem loadAllOrNothing_iff {file : List UInt8} {w : World τ ρ I} (hn : w.nPast < 2 ^ 64)
    (ha : w.activeClIdx < 2 ^ 64) :
    AllOrNothing spec file w ↔
      (FileComplete spec file ∧ HeaderValid spec file) ∨
        (¬FileComplete spec file ∧ Repeats spec file w) := by
  have hnPast : ofLeBytes (overlay (leBytes 8 w.nPast) (file.take 8)) = w.nPast ↔
      file.take 8 <+: leBytes 8 w.nPast := ofLeBytes_overlay_iff hn (List.length_take_le _ _)
  have hclIdx : ofLeBytes (overlay (leBytes 8 w.activeClIdx) ((file.drop 8).take 8)) =
      w.activeClIdx ↔ (file.drop 8).take 8 <+: leBytes 8 w.activeClIdx :=
    ofLeBytes_overlay_iff ha (List.length_take_le _ _)
  unfold AllOrNothing
  rw [loadKVCacheFromFile_eq]
  by_cases hbig : maxHistory < fileHistorySize file
  · have hinc : ¬FileComplete spec file := fun h => absurd h.1 (not_le.mpr hbig)
    rw [if_pos hbig]
    simp only [hnPast, hclIdx, hinc, false_and, false_or, not_false_eq_true, true_and, and_true]
    constructor
    · rintro ⟨h, h'⟩
      exact ⟨h, h', fun hle => absurd hle (not_le.mpr hbig),
        fun hle => absurd hle (not_le.mpr hbig)⟩
    · intro h
      exact ⟨h.nPast, h.activeClIdx⟩
  · rw [if_neg hbig]
    by_cases hcomplete : FileComplete spec file
    · have hlen : 24 ≤ file.length := by
        have := hcomplete.2
        unfold imagesStart at this
        omega
      have hn' : ofLeBytes (overlay (leBytes 8 w.nPast) (file.take 8)) = fileNPast file :=
        wordAt_eq 0 (by omega)
      have ha' : ofLeBytes (overlay (leBytes 8 w.activeClIdx) ((file.drop 8).take 8)) =
          fileClIdx file := wordAt_eq 8 (by omega)
      simp only [hcomplete, if_true, hn', ha', true_and, not_true_eq_false, false_and, or_false,
        List.length_map, fileIds, idsOfBytes_length]
      constructor
      · rintro ⟨h, h', h''⟩
        exact ⟨h, h', h''⟩
      · intro h
        exact ⟨h.clIdx, h.history, h.fits⟩
    · simp only [hcomplete, if_false, hnPast, hclIdx, imageByte_getD_iff, false_and, false_or,
        not_false_eq_true, true_and]
      constructor
      · rintro ⟨h, h', h'', h'''⟩
        exact ⟨h, h', fun _ => h'', fun _ => h'''⟩
      · intro h
        exact ⟨h.nPast, h.activeClIdx, h.tokenHistory (not_lt.mp hbig), h.kv (not_lt.mp hbig)⟩

/-- A file of one byte, loaded by a new instance: the load throws and leaves `n_past` at 5. -/
theorem load_oneByte : ¬AllOrNothing (tinySpec [4] 2 1) [5] (tinyWorld (tinySpec [4] 2 1)) := by
  intro h
  exact absurd h.1 (by decide)

/-- The file that a new instance saves has a valid header: the load of it is all or nothing. -/
theorem load_newFile : AllOrNothing (tinySpec [4] 2 1)
    (saveKVCacheToFile (tinySpec [4] 2 1) (tinyWorld (tinySpec [4] 2 1)))
    (tinyWorld (tinySpec [4] 2 1)) := by
  apply (loadAllOrNothing_iff (by decide) (by decide)).mpr
  exact Or.inl ⟨by decide, by decide, by decide, by decide⟩

end Geniex
