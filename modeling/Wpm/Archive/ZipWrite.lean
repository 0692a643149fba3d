import Mathlib.Algebra.Order.Ring.Nat
import Wpm.Lib.Loop
import Wpm.Lib.Streaming
import Wpm.Archive.Zip

/-!
Writing the contents of a zip entry.

The program drives the compressor itself: it reads a file buffer by buffer, gives each buffer to the
compressor until it has taken all of it, and then asks it to finish until the stream has ended, each
call with a whole buffer of room behind what is compressed already. A file is stored as it is when a
sample of it hardly gets smaller, or when the compressor fails.
-/

namespace Wpm.Archive

open Wpm.Lib.CString Wpm.Lib.Loop Wpm.Lib.Streaming

/-- `WPM_ZLIB_NG_BUFFER_BYTES`. -/
def zlibNgBufferBytes : ℕ := 1048576

/-- `WPM_COMPRESSION_SAMPLE_BYTES`. -/
def compressionSampleBytes : ℕ := 65536

/-- `WPM_COMPRESSION_SAMPLE_MIN_FILE_BYTES`. -/
def compressionSampleMinFileBytes : ℕ := 1048576

/-- `WPM_INCOMPRESSIBLE_SAMPLE_PERCENT`. -/
def incompressibleSamplePercent : ℕ := 98

/-- zlib-ng: the two coders, the running checksum, and the size to which `zng_compress2` brings a
sample, if it does. -/
structure ZlibNg where
  deflate : Coder UInt8 UInt8
  inflate : Coder UInt8 UInt8
  crc32 : ℕ → Bytes → ℕ
  compress2 : Bytes → Option ℕ
  crc32_nil : ∀ c, crc32 c [] = c
  crc32_append : ∀ c x y, crc32 c (x ++ y) = crc32 (crc32 c x) y

/-- **The streaming contract of zlib-ng**: a call that goes well gets on, an ended stream stays
ended, and the decompressor undoes what the compressor does. -/
structure ZlibNg.Contract (Z : ZlibNg) : Prop where
  productive : Z.deflate.Productive
  stops : Z.inflate.Stops
  stream_ne_nil : ∀ content stream, Z.deflate.Coded content stream → stream ≠ []
  decodes : ∀ content stream, Z.deflate.Coded content stream → Z.inflate.Decodes content stream

/-- No block of memory has as many bytes. -/
def memoryLimit : ℕ := 0x8000000000000000

/-- The sizes of blocks for which `realloc` finds memory. -/
structure Memory where
  realloc : ℕ → Bool
  lt_limit : ∀ n, realloc n = true → n < memoryLimit

/-- `wpm_zlib_ng_buffer`. -/
structure ZlibNgBuffer where
  data : Bytes
  capacity : ℕ

/-- `(size_t)-1`. -/
def sizeMax : ℕ := 0xFFFFFFFFFFFFFFFF

/-- The loop of `wpm_zlib_ng_buffer_reserve`, with the number of its turns. -/
def growCapacity (required : ℕ) : ℕ → ℕ → ℕ
  | 0, capacity => capacity
  | turns + 1, capacity =>
    if capacity < required then
      if sizeMax / 2 < capacity then required else growCapacity required turns (capacity * 2)
    else capacity

/-- `wpm_zlib_ng_buffer_reserve`. -/
def zlibNgBufferReserve (M : Memory) (buffer : ZlibNgBuffer) (additional : ℕ) :
    Option ZlibNgBuffer :=
  if sizeMax - buffer.data.length < additional then none
  else if buffer.data.length + additional ≤ buffer.capacity then some buffer
  else
    let capacity := growCapacity (buffer.data.length + additional) 64
      (if buffer.capacity = 0 then zlibNgBufferBytes else buffer.capacity)
    if M.realloc capacity then some { buffer with capacity } else none

/-- The pieces in which the program reads and writes `bytes`, a buffer at a time. -/
def bufferPieces : ℕ → Bytes → List Bytes
  | 0, _ => []
  | turns + 1, bytes =>
    if bytes = [] then []
    else bytes.take zlibNgBufferBytes :: bufferPieces turns (bytes.drop zlibNgBufferBytes)

/-- The compressor at work: its state, the input that is left, and what is compressed. -/
structure Deflating (Z : ZlibNg) where
  stream : Z.deflate.State
  input : Bytes
  compressed : ZlibNgBuffer

section Model

variable (Z : ZlibNg) (M : Memory)

/-- A call of `zng_deflate`, with a buffer of room behind what is compressed. -/
def deflateCall (finish : Bool) (s : Deflating Z) : Option (Status × Deflating Z) :=
  (zlibNgBufferReserve M s.compressed zlibNgBufferBytes).map fun buffer =>
    let turn := Z.deflate.call s.stream s.input finish zlibNgBufferBytes
    (turn.status, ⟨turn.state, s.input.drop turn.taken,
      { buffer with data := buffer.data ++ turn.produced }⟩)

/-- A turn of the loop that gives the compressor its input. -/
def feedTurn (s : Deflating Z) : Option (Deflating Z) ⊕ Deflating Z :=
  if s.input = [] then .inl (some s)
  else match deflateCall Z M false s with
    | some (.ok, s) => .inr s
    | _ => .inl none

/-- A turn of the loop that finishes the stream. -/
def finishTurn (s : Deflating Z) : Option (Deflating Z) ⊕ Deflating Z :=
  match deflateCall Z M true s with
  | some (.streamEnd, s) => .inl (some s)
  | some (.ok, s) => .inr s
  | _ => .inl none

/-- The file read and given to the compressor, with the checksum. -/
def feedPieces : List Bytes → ℕ × Deflating Z → OptionT Option (ℕ × Deflating Z)
  | [], s => pure s
  | piece :: pieces, (crc, s) => do
    let s ← OptionT.mk
      (loop (feedTurn Z M) (piece.length + memoryLimit + 1) { s with input := piece })
    feedPieces pieces (Z.crc32 crc piece, s)

/-- `wpm_zlib_ng_compress_file`: the compressed contents and their checksum. -/
def zlibNgCompressFile (content : Bytes) : OptionT Option (Bytes × ℕ) := do
  let stream ← OptionT.mk (some Z.deflate.init)
  let (crc, s) ← feedPieces Z M (bufferPieces content.length content) (0, ⟨stream, [], ⟨[], 0⟩⟩)
  let s ← OptionT.mk (loop (finishTurn Z M) (memoryLimit + 1) s)
  if Z.deflate.close s.stream then pure (s.compressed.data, crc) else failure

/-- `wpm_zlib_ng_sample_is_incompressible`; `none` when the sample cannot be compressed. -/
def zlibNgSampleIsIncompressible (sample : Bytes) : Option Bool :=
  (Z.compress2 sample).map fun compressedSize =>
    sample.length * incompressibleSamplePercent ≤ compressedSize * 100

/-- `wpm_zip_should_store`. -/
def zipShouldStore (content : Bytes) : Bool :=
  if content.length < compressionSampleMinFileBytes then false
  else if content.take compressionSampleBytes = [] then false
  else (zlibNgSampleIsIncompressible Z (content.take compressionSampleBytes)).getD false

/-- A file, of a size that is a signed 64-bit number. -/
structure File where
  content : Bytes
  length_lt : content.length < 0x8000000000000000

/-- The name of an entry, a C string. -/
abbrev EntryName := { name : Bytes // (0 : UInt8) ∉ name }

/-- `wpm_zip_initialize_file_info`, with the checksum that the entry is closed with and the bytes
that are written to it. -/
def zipInitializeFileInfo (path : EntryName) (method : ℕ) (file : File) (data : Bytes) (crc : ℕ)
    (attributes : ℕ) : ZipEntry where
  filename := path
  uncompressedSize := file.content.length
  compressedSize := data.length
  flag := 2048
  compressionMethod := method
  crc := crc
  versionMadeby := 10 * 256
  externalFa := attributes
  data := data
  zero_notMem_filename := path.2
  uncompressedSize_lt := by
    have hlen := file.length_lt
    omega

/-- `wpm_zip_writer_close_raw`. -/
def zipWriterCloseRaw (entry : ZipEntry) : Option ZipEntry :=
  if 0x7FFFFFFFFFFFFFFF < entry.uncompressedSize then none else some entry

/-- `wpm_zip_add_stored_file`. -/
def zipAddStoredFile (path : EntryName) (attributes : ℕ) (file : File) : Option ZipEntry :=
  let pieces := bufferPieces file.content.length file.content
  zipWriterCloseRaw (zipInitializeFileInfo path methodStore file pieces.flatten
    (pieces.foldl Z.crc32 0) attributes)

/-- `wpm_zip_add_file`: the entry that is written. -/
def zipAddFile (path : EntryName) (attributes : ℕ) (file : File) : OptionT Option ZipEntry :=
  if zipShouldStore Z file.content then OptionT.mk (some (zipAddStoredFile Z path attributes file))
  else OptionT.mk (match (zlibNgCompressFile Z M file.content).run with
    | none => none
    | some (some (data, crc)) => some (zipWriterCloseRaw (zipInitializeFileInfo path methodDeflate
        file (bufferPieces data.length data).flatten crc attributes))
    | some none => some (zipAddStoredFile Z path attributes file))

end Model

/-! ### Buffers -/

lemma flatten_bufferPieces {turns : ℕ} {bytes : Bytes} (h : bytes.length ≤ turns) :
    (bufferPieces turns bytes).flatten = bytes := by
  induction turns generalizing bytes with
  | zero => exact (List.length_eq_zero_iff.1 (by omega)).symm
  | succ turns ih =>
    rw [bufferPieces]
    split
    · next hnil => exact hnil.symm
    · next hne =>
      have hpos := List.length_pos_iff.2 hne
      have hdrop : (bytes.drop zlibNgBufferBytes).length ≤ turns := by
        rw [List.length_drop, zlibNgBufferBytes]
        omega
      rw [List.flatten_cons, ih hdrop, List.take_append_drop]

lemma le_growCapacity {required turns capacity : ℕ} (h : required ≤ capacity * 2 ^ turns) :
    required ≤ growCapacity required turns capacity := by
  induction turns generalizing capacity with
  | zero => simpa [growCapacity] using h
  | succ turns ih =>
    rw [growCapacity]
    split
    · split
      · exact Nat.le_refl _
      · exact ih (by rwa [Nat.mul_assoc, ← Nat.pow_succ'])
    · next hle => exact Nat.le_of_not_lt hle

/-- What a reserved buffer is good for. -/
lemma zlibNgBufferReserve_eq_some {M : Memory} {buffer buffer' : ZlibNgBuffer} {additional : ℕ}
    (h : zlibNgBufferReserve M buffer additional = some buffer')
    (hsize : buffer.data.length ≤ buffer.capacity) (hcap : buffer.capacity < memoryLimit) :
    buffer'.data = buffer.data ∧ buffer.data.length + additional ≤ buffer'.capacity ∧
      buffer'.capacity < memoryLimit := by
  unfold zlibNgBufferReserve at h
  split at h
  · exact absurd h (by simp)
  next hmax =>
  split at h
  · next hfits =>
    obtain rfl := Option.some.inj h
    exact ⟨rfl, hfits, hcap⟩
  · simp only [Option.ite_none_right_eq_some, Option.some.injEq] at h
    obtain ⟨hrealloc, rfl⟩ := h
    refine ⟨rfl, le_growCapacity ?_, M.lt_limit _ hrealloc⟩
    have hstart : 1 ≤ if buffer.capacity = 0 then zlibNgBufferBytes else buffer.capacity := by
      split
      · decide
      · omega
    have hmul := Nat.mul_le_mul_right (2 ^ 64) hstart
    have hpow : (2 : ℕ) ^ 64 = sizeMax + 1 := by decide
    have hlimit : memoryLimit ≤ sizeMax := by decide
    omega

/-! ### The compressor -/

section Compressor

variable {Z : ZlibNg} {M : Memory}

/-- The compressor has taken `fed`, and what it has made of it is in the buffer. -/
structure Feeding (fed : Bytes) (s : Deflating Z) : Prop where
  fed : Z.deflate.Fed fed s.compressed.data s.stream
  size_le : s.compressed.data.length ≤ s.compressed.capacity
  capacity_lt : s.compressed.capacity < memoryLimit

/-- The calls that are still possible: each takes some input or fills some of the memory. -/
def callsLeft (s : Deflating Z) : ℕ := s.input.length + (memoryLimit - s.compressed.data.length)

/-- A call that goes well gets on. -/
lemma deflateCall_ok {finish : Bool} {fed : Bytes} {s s' : Deflating Z} (hZ : Z.Contract)
    (hs : Feeding fed s) (h : deflateCall Z M finish s = some (.ok, s')) :
    ∃ taken, s.input = taken ++ s'.input ∧ Feeding (fed ++ taken) s' ∧
      callsLeft s' < callsLeft s := by
  obtain ⟨buffer, hbuffer, heq⟩ := Option.map_eq_some_iff.1 h
  obtain ⟨hdata, hroom, hlimit⟩ := zlibNgBufferReserve_eq_some hbuffer hs.size_le hs.capacity_lt
  obtain ⟨hok, rfl⟩ := Prod.mk.inj heq
  have hprogress := hZ.productive s.stream s.input finish zlibNgBufferBytes (by decide) hok
  have htaken := Z.deflate.taken_le s.stream s.input finish zlibNgBufferBytes
  have hproduced := Z.deflate.produced_le s.stream s.input finish zlibNgBufferBytes
  have hfed := hs.fed.call s.input finish zlibNgBufferBytes hok
  set turn := Z.deflate.call s.stream s.input finish zlibNgBufferBytes
  refine ⟨s.input.take turn.taken, (List.take_append_drop _ _).symm, ⟨?_, ?_, hlimit⟩, ?_⟩
  · simpa only [hdata] using hfed
  · simp only [hdata, List.length_append]
    omega
  · have hgrows : 0 < turn.taken ∨ 0 < turn.produced.length :=
      hprogress.imp_right List.length_pos_iff.2
    simp only [callsLeft, hdata, List.length_drop, List.length_append]
    omega

lemma deflateCall_streamEnd {fed : Bytes} {s s' : Deflating Z} (hs : Feeding fed s)
    (hinput : s.input = []) (h : deflateCall Z M true s = some (.streamEnd, s')) :
    Z.deflate.Coded fed s'.compressed.data := by
  obtain ⟨buffer, hbuffer, heq⟩ := Option.map_eq_some_iff.1 h
  obtain ⟨hdata, -, -⟩ := zlibNgBufferReserve_eq_some hbuffer hs.size_le hs.capacity_lt
  obtain ⟨hend, rfl⟩ := Prod.mk.inj heq
  have htaken := Z.deflate.taken_le s.stream s.input true zlibNgBufferBytes
  refine ⟨fed, s.compressed.data, s.stream, s.input, true, zlibNgBufferBytes, hs.fed, hend, ?_,
    by rw [hinput, List.append_nil], by rw [hdata]⟩
  rw [hinput] at htaken ⊢
  exact Nat.le_zero.1 htaken

/-- **A piece is taken whole**, or the compressor fails. -/
lemma feedTurn_spec (hZ : Z.Contract) {fed piece : Bytes} {s : Deflating Z} {n : ℕ}
    (hs : Feeding fed s) (hn : piece.length + memoryLimit < n) :
    Returns (fun s' => Feeding (fed ++ piece) s' ∧ s'.input = [])
      (OptionT.mk (loop (feedTurn Z M) n { s with input := piece })) := by
  refine @loop_spec _ _ (feedTurn Z M)
    (fun s' => ∃ taken, taken ++ s'.input = piece ∧ Feeding (fed ++ taken) s')
    (fun r => ∀ s' ∈ r, Feeding (fed ++ piece) s' ∧ s'.input = []) callsLeft ?_ ?_ _ _ ⟨[], rfl, ?_⟩ ?_
  · rintro s' r ⟨taken, rfl, hfeeding⟩ hturn s'' hs''
    unfold feedTurn at hturn
    split at hturn
    · next hnil =>
      obtain rfl := Sum.inl.inj hturn
      obtain rfl := Option.some.inj hs''
      exact ⟨by rwa [hnil, List.append_nil], hnil⟩
    · split at hturn
      · exact absurd hturn (by simp)
      · obtain rfl := Sum.inl.inj hturn
        exact absurd hs'' (by simp)
  · rintro s' s'' ⟨taken, rfl, hfeeding⟩ hturn
    unfold feedTurn at hturn
    split at hturn
    · exact absurd hturn (by simp)
    · split at hturn
      · next hcall =>
        obtain rfl := Sum.inr.inj hturn
        obtain ⟨more, hmore, hfeeding', hleft⟩ := deflateCall_ok hZ hfeeding hcall
        refine ⟨⟨taken ++ more, ?_, ?_⟩, hleft⟩
        · rw [hmore, List.append_assoc]
        · rwa [← List.append_assoc]
      · exact absurd hturn (by simp)
  · rw [List.append_nil]
    exact ⟨hs.fed, hs.size_le, hs.capacity_lt⟩
  · simp only [callsLeft]
    omega

/-- **The stream is finished**, or the compressor fails. -/
lemma finishTurn_spec (hZ : Z.Contract) {fed : Bytes} {s : Deflating Z} {n : ℕ}
    (hs : Feeding fed s) (hinput : s.input = []) (hn : memoryLimit < n) :
    Returns (fun s' => Z.deflate.Coded fed s'.compressed.data)
      (OptionT.mk (loop (finishTurn Z M) n s)) := by
  refine @loop_spec _ _ (finishTurn Z M) (fun s' => Feeding fed s' ∧ s'.input = [])
    (fun r => ∀ s' ∈ r, Z.deflate.Coded fed s'.compressed.data) callsLeft ?_ ?_ _ _ ⟨hs, hinput⟩ ?_
  · rintro s' r ⟨hfeeding, hnil⟩ hturn s'' hs''
    unfold finishTurn at hturn
    split at hturn
    · next hcall =>
      obtain rfl := Sum.inl.inj hturn
      obtain rfl := Option.some.inj hs''
      exact deflateCall_streamEnd hfeeding hnil hcall
    · exact absurd hturn (by simp)
    · obtain rfl := Sum.inl.inj hturn
      exact absurd hs'' (by simp)
  · rintro s' s'' ⟨hfeeding, hnil⟩ hturn
    unfold finishTurn at hturn
    split at hturn
    · exact absurd hturn (by simp)
    · next hcall =>
      obtain rfl := Sum.inr.inj hturn
      obtain ⟨more, hmore, hfeeding', hleft⟩ := deflateCall_ok hZ hfeeding hcall
      obtain ⟨rfl, hnil'⟩ := List.append_eq_nil_iff.1 (hmore.symm.trans hnil)
      exact ⟨⟨by rwa [List.append_nil] at hfeeding', hnil'⟩, hleft⟩
    · exact absurd hturn (by simp)
  · simp only [callsLeft, hinput, List.length_nil]
    omega

lemma ZlibNg.crc32_foldl (Z : ZlibNg) (crc : ℕ) (pieces : List Bytes) :
    pieces.foldl Z.crc32 crc = Z.crc32 crc pieces.flatten := by
  induction pieces generalizing crc with
  | nil => exact (Z.crc32_nil crc).symm
  | cons piece pieces ih => rw [List.foldl_cons, ih, List.flatten_cons, Z.crc32_append]

lemma feedPieces_spec (hZ : Z.Contract) {fed : Bytes} {crc : ℕ} {s : Deflating Z}
    (pieces : List Bytes) (hs : Feeding fed s) (hinput : s.input = []) :
    Returns (fun r => Feeding (fed ++ pieces.flatten) r.2 ∧ r.2.input = [] ∧
      r.1 = Z.crc32 crc pieces.flatten) (feedPieces Z M pieces (crc, s)) := by
  induction pieces generalizing fed crc s with
  | nil =>
    refine returns_pure ⟨?_, hinput, (Z.crc32_nil crc).symm⟩
    rwa [List.flatten_nil, List.append_nil]
  | cons piece pieces ih =>
    refine (feedTurn_spec hZ hs (Nat.lt_succ_self _)).bind fun s' hs' => ?_
    rw [List.flatten_cons, ← List.append_assoc, Z.crc32_append]
    exact ih hs'.1 hs'.2

/-- **What the compressor leaves** is a stream of the contents, with their checksum. -/
lemma zlibNgCompressFile_spec (hZ : Z.Contract) (content : Bytes) :
    Returns (fun r => Z.deflate.Coded content r.1 ∧ r.2 = Z.crc32 0 content)
      (zlibNgCompressFile Z M content) := by
  have hflatten := flatten_bufferPieces (Nat.le_refl content.length)
  refine (returns_ofOption (Q := fun stream => Z.deflate.init = some stream) fun _ h => h).bind
    fun stream hstream => ?_
  have hstart : Feeding [] (⟨stream, [], ⟨[], 0⟩⟩ : Deflating Z) :=
    ⟨.init hstream, Nat.le_refl 0, show 0 < memoryLimit by decide⟩
  refine (feedPieces_spec hZ _ hstart rfl).bind fun r hr => ?_
  obtain ⟨hfeeding, hinput, hcrc⟩ := hr
  rw [hflatten] at hfeeding hcrc
  refine (finishTurn_spec hZ hfeeding hinput (Nat.lt_succ_self _)).bind fun s hs => ?_
  split
  · exact returns_pure ⟨hs, hcrc⟩
  · exact returns_failure

/-- What is written for a file: the contents as they are, or a stream of them. -/
structure Written (Z : ZlibNg) (content : Bytes) (e : ZipEntry) : Prop where
  clear : e.flag.testBit 0 = false
  uncompressedSize : e.uncompressedSize = content.length
  compressedSize : e.compressedSize = e.data.length
  crc : e.crc = Z.crc32 0 content
  data : e.compressionMethod = methodStore ∧ e.data = content ∨
    e.compressionMethod = methodDeflate ∧ Z.deflate.Coded content e.data

lemma zipWriterCloseRaw_file (path : EntryName) (method : ℕ) (file : File) (data : Bytes)
    (crc attributes : ℕ) :
    zipWriterCloseRaw (zipInitializeFileInfo path method file data crc attributes) =
      some (zipInitializeFileInfo path method file data crc attributes) := by
  have hlen := file.length_lt
  refine if_neg ?_
  show ¬ (0x7FFFFFFFFFFFFFFF : ℤ) < file.content.length
  omega

lemma written_zipInitializeFileInfo {path : EntryName} {method : ℕ} {file : File} {data : Bytes}
    {crc attributes : ℕ} (hcrc : crc = Z.crc32 0 file.content)
    (hdata : method = methodStore ∧ data = file.content ∨
      method = methodDeflate ∧ Z.deflate.Coded file.content data) :
    Written Z file.content (zipInitializeFileInfo path method file data crc attributes) :=
  ⟨show (2048 : ℕ).testBit 0 = false by decide, rfl, rfl, hcrc, hdata⟩

lemma zipAddStoredFile_spec (Z : ZlibNg) (path : EntryName) (attributes : ℕ) (file : File) :
    ∃ e, zipAddStoredFile Z path attributes file = some e ∧ Written Z file.content e := by
  have hflatten := flatten_bufferPieces (Nat.le_refl file.content.length)
  refine ⟨_, zipWriterCloseRaw_file _ _ _ _ _ _, written_zipInitializeFileInfo ?_ ?_⟩
  · rw [Z.crc32_foldl, hflatten]
  · exact .inl ⟨rfl, hflatten⟩

/-- **Every file is written**, stored or compressed. -/
theorem zipAddFile_spec (hZ : Z.Contract) (path : EntryName) (attributes : ℕ) (file : File) :
    ∃ e, (zipAddFile Z M path attributes file).run = some (some e) ∧ Written Z file.content e := by
  obtain ⟨stored, hstored, hwritten⟩ := zipAddStoredFile_spec Z path attributes file
  have hfallback : some (zipAddStoredFile Z path attributes file) = some (some stored) := by
    rw [hstored]
  unfold zipAddFile
  split
  · exact ⟨stored, hfallback, hwritten⟩
  · obtain ⟨r, hr, hcompressed⟩ := zlibNgCompressFile_spec (M := M) hZ file.content
    cases r with
    | none => exact ⟨stored, by rw [hr]; exact hfallback, hwritten⟩
    | some r =>
      obtain ⟨hcoded, hcrc⟩ := hcompressed r rfl
      have hflatten := flatten_bufferPieces (Nat.le_refl r.1.length)
      refine ⟨zipInitializeFileInfo path methodDeflate file (bufferPieces r.1.length r.1).flatten
        r.2 attributes, ?_, written_zipInitializeFileInfo hcrc (.inr ⟨rfl, ?_⟩)⟩
      · rw [hr]
        exact congrArg some (zipWriterCloseRaw_file _ _ _ _ _ _)
      · rw [hflatten]
        exact hcoded

end Compressor

end Wpm.Archive
