import Wpm.Archive.ZipWrite

/-!
Reading the contents of a zip entry.

The stored bytes come piece by piece. Of a compressed entry each piece is given to the decompressor
until it has taken all of it, each call with a buffer of room; what comes out is written to the
output, within its capacity. Whatever the entry, the reader delivers no more than the capacity, and
succeeds only when the sizes, the checksum and the end of the stream are right
(`zipReadCurrentEntry_sound`).
-/

namespace Wpm.Archive

open Wpm.Lib.CString Wpm.Lib.Loop Wpm.Lib.Streaming

/-- The stored bytes of an entry as the reads of minizip deliver them: whether the entry opens, the
pieces, whether the reads end without an error, and whether the entry closes. -/
structure RawReads where
  opens : Bool
  pieces : List Bytes
  ends : Bool
  closes : Bool
  ne_nil : ∀ piece ∈ pieces, piece ≠ []

/-- Reads that deliver all the bytes of an entry. -/
structure RawReads.Faithful (raw : RawReads) (e : ZipEntry) : Prop where
  opens : raw.opens = true
  ends : raw.ends = true
  closes : raw.closes = true
  flatten : raw.pieces.flatten = e.data

/-- Where the contents go, beside memory, which takes everything: a file, of which `WriteFile` says
whether it went well and how many bytes it has written behind those that are there; and a hash, of
which `crypto_generichash_update` says whether it went well. -/
structure Destination where
  file : Option (Bytes → Bytes → Bool × ℕ)
  hash : Option (Bytes → Bytes → Bool)

/-- A destination that takes everything. -/
structure Destination.Faithful (destination : Destination) : Prop where
  file : ∀ writeFile ∈ destination.file, ∀ written bytes,
    writeFile written bytes = (true, bytes.length)
  hash : ∀ update ∈ destination.hash, ∀ hashed bytes, update hashed bytes = true

/-- What `WriteFile` answers, if there is a file. -/
def Destination.written (destination : Destination) (delivered data : Bytes) : Bool × ℕ :=
  match destination.file with
  | none => (true, data.length)
  | some writeFile => writeFile delivered data

/-- What `crypto_generichash_update` answers, if there is a hash. -/
def Destination.hashed (destination : Destination) (delivered data : Bytes) : Bool :=
  match destination.hash with
  | none => true
  | some update => update delivered data

/-- `wpm_zip_output`, with the bytes that are delivered. -/
structure ZipOutput where
  delivered : Bytes
  size : ℕ
  crc32 : ℕ

/-- The decompressor at work: its state, the rest of its piece, and the output. -/
structure Inflating (Z : ZlibNg) where
  stream : Z.inflate.State
  input : Bytes
  output : ZipOutput

/-- The variables of the reader; there is a stream when the entry is compressed. -/
structure Reading (Z : ZlibNg) where
  compressedRead : ℕ
  finished : Bool
  stream : Option Z.inflate.State
  output : ZipOutput

section Model

variable (Z : ZlibNg) (destination : Destination) (capacity : ℕ)

/-- `wpm_zip_output_write`. -/
def zipOutputWrite (output : ZipOutput) (data : Bytes) : Bool × ZipOutput :=
  if capacity < output.size ∨ capacity - output.size < data.length then (false, output)
  else if (destination.written output.delivered data).1 = false ∨
      (destination.written output.delivered data).2 ≠ data.length then
    (false, { output with
      delivered := output.delivered ++ data.take (destination.written output.delivered data).2 })
  else if destination.hashed output.delivered data = false then
    (false, { output with delivered := output.delivered ++ data })
  else (true, ⟨output.delivered ++ data, output.size + data.length, Z.crc32 output.crc32 data⟩)

/-- The call of `zng_inflate`, with a buffer of room. -/
def inflateCall (s : Inflating Z) : Turn Z.inflate.State UInt8 :=
  Z.inflate.call s.stream s.input false zlibNgBufferBytes

/-- What the call gives is written, if it gives anything. -/
def writeProduced (s : Inflating Z) : Bool × ZipOutput :=
  if (inflateCall Z s).produced = [] then (true, s.output)
  else zipOutputWrite Z destination capacity s.output (inflateCall Z s).produced

def afterCall (s : Inflating Z) : Inflating Z :=
  ⟨(inflateCall Z s).state, s.input.drop (inflateCall Z s).taken,
    (writeProduced Z destination capacity s).2⟩

/-- A turn of the loop that gives the decompressor a piece. The answer is whether the stream has
ended, unless the reader gives up. -/
def inflateTurn (s : Inflating Z) : (Option Bool × Inflating Z) ⊕ Inflating Z :=
  if s.input = [] then .inl (some false, s)
  else if (writeProduced Z destination capacity s).1 = false then
    .inl (none, afterCall Z destination capacity s)
  else match (inflateCall Z s).status with
    | .streamEnd => .inl
        (if (afterCall Z destination capacity s).input = [] then some true else none,
          afterCall Z destination capacity s)
    | .error => .inl (none, afterCall Z destination capacity s)
    | .ok =>
      if (inflateCall Z s).taken = 0 ∧ (inflateCall Z s).produced = [] then
        .inl (none, afterCall Z destination capacity s)
      else .inr (afterCall Z destination capacity s)

/-- What the reader does with a piece; the answer is whether it goes on. -/
def readPiece (e : ZipEntry) (piece : Bytes) (s : Reading Z) : Option (Bool × Reading Z) :=
  if e.compressedSize < s.compressedRead + piece.length then some (false, s)
  else match s.stream with
    | none => some ((zipOutputWrite Z destination capacity s.output piece).1, { s with
        compressedRead := s.compressedRead + piece.length
        output := (zipOutputWrite Z destination capacity s.output piece).2 })
    | some stream =>
      (loop (inflateTurn Z destination capacity) (piece.length + (capacity - s.output.size) + 1)
        ⟨stream, piece, s.output⟩).map fun answer => (answer.1.isSome,
          ⟨s.compressedRead + piece.length, s.finished || answer.1 == some true,
            some answer.2.stream, answer.2.output⟩)

/-- What the reader does with the pieces. -/
def readPieces (e : ZipEntry) : List Bytes → Reading Z → Option (Bool × Reading Z)
  | [], s => some (true, s)
  | piece :: pieces, s => match readPiece Z destination capacity e piece s with
    | some (true, s) => readPieces e pieces s
    | answer => answer

/-- The conditions under which `wpm_zip_read_current_entry` begins to read. -/
def readable (e : ZipEntry) : Bool :=
  0 ≤ e.compressedSize ∧ 0 ≤ e.uncompressedSize ∧ e.flag.testBit 0 = false ∧
    (e.compressionMethod = methodStore ∨ e.compressionMethod = methodDeflate) ∧
    e.uncompressedSize ≤ capacity

/-- The stream that the reader begins with; the outer `none` when it cannot be initialised. -/
def beginStream (e : ZipEntry) : Option (Option Z.inflate.State) :=
  if e.compressionMethod = methodDeflate then Z.inflate.init.map some else some none

/-- The variables before the first read. -/
def beginReading (e : ZipEntry) (stream : Option Z.inflate.State) : Reading Z :=
  ⟨0, decide (e.compressionMethod = methodStore), stream, ⟨[], 0, 0⟩⟩

/-- Whether everything is in order when there is nothing more to read. -/
def readComplete (e : ZipEntry) (s : Reading Z) : Bool :=
  s.finished && decide (s.compressedRead = e.compressedSize) &&
    decide (s.output.size = e.uncompressedSize) && decide (s.output.crc32 = e.crc) &&
    (s.stream.map Z.inflate.close).getD true

/-- `wpm_zip_read_current_entry`: whether it succeeds, and the output; `none` when it does not
return. -/
def zipReadCurrentEntry (e : ZipEntry) (raw : RawReads) : Option (Bool × ZipOutput) :=
  if readable capacity e = false then some (false, ⟨[], 0, 0⟩)
  else match beginStream Z e with
    | none => some (false, ⟨[], 0, 0⟩)
    | some stream =>
      if raw.opens = false then some (false, ⟨[], 0, 0⟩)
      else (readPieces Z destination capacity e raw.pieces (beginReading Z e stream)).map
        fun answer => (answer.1 && raw.ends && raw.closes && readComplete Z e answer.2,
          answer.2.output)

end Model

/-! ### What any entry can do -/

section Hostile

variable {Z : ZlibNg} {d : Destination} {capacity : ℕ}

/-- The output counts and sums what is delivered, and keeps within its capacity. -/
structure OutputOk (Z : ZlibNg) (capacity : ℕ) (output : ZipOutput) : Prop where
  size : output.size = output.delivered.length
  size_le : output.size ≤ capacity
  crc32 : output.crc32 = Z.crc32 0 output.delivered

lemma outputOk_empty : OutputOk Z capacity ⟨[], 0, 0⟩ :=
  ⟨rfl, Nat.zero_le _, (Z.crc32_nil 0).symm⟩

lemma OutputOk.append {output : ZipOutput} {data : Bytes} (h : OutputOk Z capacity output)
    (hfits : output.size + data.length ≤ capacity) :
    OutputOk Z capacity ⟨output.delivered ++ data, output.size + data.length,
      Z.crc32 output.crc32 data⟩ :=
  ⟨by rw [List.length_append, h.size], hfits, by rw [h.crc32, Z.crc32_append]⟩

/-- A write that goes well delivers its data; one that does not keeps within the capacity. -/
lemma zipOutputWrite_spec {output : ZipOutput} (data : Bytes) (h : OutputOk Z capacity output) :
    (zipOutputWrite Z d capacity output data).2.delivered.length ≤ capacity ∧
    ((zipOutputWrite Z d capacity output data).1 = true →
      OutputOk Z capacity (zipOutputWrite Z d capacity output data).2 ∧
      (zipOutputWrite Z d capacity output data).2.delivered =
        output.delivered ++ data) := by
  have hstart : output.delivered.length ≤ capacity := h.size ▸ h.size_le
  unfold zipOutputWrite
  split
  · exact ⟨hstart, fun hfalse => absurd hfalse Bool.false_ne_true⟩
  next hroom =>
  have hfits : output.size + data.length ≤ capacity := by omega
  have haccepted := h.append hfits
  have hlen : (output.delivered ++ data).length ≤ capacity := haccepted.size ▸ haccepted.size_le
  split
  · refine ⟨?_, fun hfalse => absurd hfalse Bool.false_ne_true⟩
    simp only [List.length_append, List.length_take] at hlen ⊢
    omega
  · split
    · exact ⟨hlen, fun hfalse => absurd hfalse Bool.false_ne_true⟩
    · exact ⟨hlen, fun _ => ⟨haccepted, rfl⟩⟩

lemma writeProduced_spec {s : Inflating Z} (h : OutputOk Z capacity s.output) :
    (writeProduced Z d capacity s).2.delivered.length ≤ capacity ∧
    ((writeProduced Z d capacity s).1 = true →
      OutputOk Z capacity (writeProduced Z d capacity s).2 ∧
      (writeProduced Z d capacity s).2.delivered =
        s.output.delivered ++ (inflateCall Z s).produced) := by
  unfold writeProduced
  split
  · next hnil =>
    rw [hnil, List.append_nil]
    exact ⟨h.size ▸ h.size_le, fun _ => ⟨h, rfl⟩⟩
  · exact zipOutputWrite_spec _ h

/-- A turn that leads to another one gets on. -/
lemma inflateTurn_inr {s s' : Inflating Z} (h : OutputOk Z capacity s.output)
    (hturn : inflateTurn Z d capacity s = .inr s') :
    s' = afterCall Z d capacity s ∧ s.input ≠ [] ∧ (inflateCall Z s).status = .ok ∧
    s'.output.delivered = s.output.delivered ++ (inflateCall Z s).produced ∧
    OutputOk Z capacity s'.output ∧
    (0 < (inflateCall Z s).taken ∨ 0 < (inflateCall Z s).produced.length) := by
  have hwritten := writeProduced_spec (d := d) h
  unfold inflateTurn at hturn
  split at hturn
  · exact absurd hturn (by simp)
  next hne =>
  split at hturn
  · exact absurd hturn (by simp)
  next hok =>
  obtain ⟨hout, hdelivered⟩ := hwritten.2 (by simpa using hok)
  split at hturn
  · exact absurd hturn (by simp)
  · exact absurd hturn (by simp)
  next hstatus =>
  split at hturn
  · exact absurd hturn (by simp)
  next hprogress =>
  obtain rfl := Sum.inr.inj hturn
  refine ⟨rfl, hne, hstatus, hdelivered, hout, ?_⟩
  rcases not_and_or.1 hprogress with htaken | hproduced
  · exact .inl (Nat.pos_of_ne_zero htaken)
  · exact .inr (List.length_pos_iff.2 hproduced)

/-- A turn that ends the loop, with what each answer means. -/
lemma inflateTurn_inl {s s' : Inflating Z} {answer : Option Bool} (h : OutputOk Z capacity s.output)
    (hturn : inflateTurn Z d capacity s = .inl (answer, s')) :
    s'.output.delivered.length ≤ capacity ∧
    (answer = some false → s.input = [] ∧ s' = s) ∧
    (answer = some true → s' = afterCall Z d capacity s ∧ s.input ≠ [] ∧
      (inflateCall Z s).status = .streamEnd ∧ s.input.drop (inflateCall Z s).taken = [] ∧
      s'.output.delivered = s.output.delivered ++ (inflateCall Z s).produced ∧
      OutputOk Z capacity s'.output) := by
  have hgiven : ∀ b : Bool, (none : Option Bool) ≠ some b := fun b => (Option.some_ne_none b).symm
  have hwritten := writeProduced_spec (d := d) h
  unfold inflateTurn at hturn
  split at hturn
  · next hnil =>
    obtain ⟨rfl, rfl⟩ := Prod.mk.inj (Sum.inl.inj hturn)
    exact ⟨h.size ▸ h.size_le, fun _ => ⟨hnil, rfl⟩, fun hfalse => absurd hfalse (by decide)⟩
  next hne =>
  split at hturn
  · obtain ⟨rfl, rfl⟩ := Prod.mk.inj (Sum.inl.inj hturn)
    exact ⟨hwritten.1, fun hb => absurd hb (hgiven _), fun hb => absurd hb (hgiven _)⟩
  next hok =>
  obtain ⟨hout, hdelivered⟩ := hwritten.2 (by simpa using hok)
  split at hturn
  · next hstatus =>
    obtain ⟨hanswer, rfl⟩ := Prod.mk.inj (Sum.inl.inj hturn)
    split at hanswer
    · next hall =>
      subst hanswer
      exact ⟨hwritten.1, fun hfalse => absurd hfalse (by decide),
        fun _ => ⟨rfl, hne, hstatus, hall, hdelivered, hout⟩⟩
    · subst hanswer
      exact ⟨hwritten.1, fun hb => absurd hb (hgiven _), fun hb => absurd hb (hgiven _)⟩
  · obtain ⟨rfl, rfl⟩ := Prod.mk.inj (Sum.inl.inj hturn)
    exact ⟨hwritten.1, fun hb => absurd hb (hgiven _), fun hb => absurd hb (hgiven _)⟩
  · split at hturn
    · obtain ⟨rfl, rfl⟩ := Prod.mk.inj (Sum.inl.inj hturn)
      exact ⟨hwritten.1, fun hb => absurd hb (hgiven _), fun hb => absurd hb (hgiven _)⟩
    · exact absurd hturn (by simp)

/-- The decompressor has no more to take or to give. -/
def Stopped (Z : ZlibNg) (stream : Z.inflate.State) : Prop :=
  ∀ input finish room, (Z.inflate.call stream input finish room).taken = 0 ∧
    (Z.inflate.call stream input finish room).produced = []

/-- The turns that are still possible: each takes some input or fills some of the capacity. -/
def turnsLeft (capacity : ℕ) (s : Inflating Z) : ℕ := s.input.length + (capacity - s.output.size)

lemma inflateTurn_lowers {s s' : Inflating Z} (h : OutputOk Z capacity s.output)
    (hturn : inflateTurn Z d capacity s = .inr s') :
    turnsLeft capacity s' < turnsLeft capacity s := by
  obtain ⟨rfl, hne, -, hdelivered, hout, hprogress⟩ := inflateTurn_inr h hturn
  have hpos := List.length_pos_iff.2 hne
  have hsize := hout.size
  have hle := hout.size_le
  rw [hdelivered, List.length_append, ← h.size] at hsize
  have hinput : (afterCall Z d capacity s).input.length =
      s.input.length - (inflateCall Z s).taken := List.length_drop
  simp only [turnsLeft, hinput, hsize] at hle ⊢
  omega

/-- **A piece given to the decompressor**: it is taken whole, or the stream ends exactly with it,
or the reader gives up. -/
lemma inflatePiece_spec (hZ : Z.Contract) {done : Bytes} {s : Inflating Z} {n : ℕ}
    (h : OutputOk Z capacity s.output) (hfed : Z.inflate.Fed done s.output.delivered s.stream)
    (hn : turnsLeft capacity s < n) :
    ∃ r, loop (inflateTurn Z d capacity) n s = some r ∧
      r.2.output.delivered.length ≤ capacity ∧
      (r.1 = some false → OutputOk Z capacity r.2.output ∧
        Z.inflate.Fed (done ++ s.input) r.2.output.delivered r.2.stream) ∧
      (r.1 = some true → OutputOk Z capacity r.2.output ∧
        Z.inflate.Coded (done ++ s.input) r.2.output.delivered ∧ Stopped Z r.2.stream) := by
  refine @loop_spec _ _ (inflateTurn Z d capacity)
    (fun s' => OutputOk Z capacity s'.output ∧ ∃ taken, taken ++ s'.input = s.input ∧
      Z.inflate.Fed (done ++ taken) s'.output.delivered s'.stream) _ (turnsLeft capacity)
    ?_ ?_ n s ⟨h, [], rfl, by rwa [List.append_nil]⟩ hn
  · rintro s' ⟨answer, s''⟩ ⟨hout, taken, hinput, hfed'⟩ hturn
    obtain ⟨hle, hmore, hend⟩ := inflateTurn_inl hout hturn
    refine ⟨hle, fun hfalse => ?_, fun htrue => ?_⟩
    · obtain ⟨hnil, rfl⟩ := hmore hfalse
      rw [hnil, List.append_nil] at hinput
      exact ⟨hout, hinput ▸ hfed'⟩
    · obtain ⟨rfl, -, hstatus, hall, hdelivered, hout'⟩ := hend htrue
      have htaken : (inflateCall Z s').taken = s'.input.length :=
        le_antisymm (Z.inflate.taken_le _ _ _ _) (List.drop_eq_nil_iff.1 hall)
      refine ⟨hout', ⟨done ++ taken, s'.output.delivered, s'.stream, s'.input, false,
        zlibNgBufferBytes, hfed', hstatus, htaken, ?_, hdelivered⟩, hZ.stops _ _ _ _ hstatus⟩
      rw [List.append_assoc, hinput]
  · rintro s' s'' ⟨hout, taken, hinput, hfed'⟩ hturn
    have hlowers := inflateTurn_lowers hout hturn
    obtain ⟨rfl, -, hstatus, hdelivered, hout', -⟩ := inflateTurn_inr hout hturn
    have hnext := hfed'.call s'.input false zlibNgBufferBytes hstatus
    refine ⟨⟨hout', taken ++ s'.input.take (inflateCall Z s').taken, ?_, ?_⟩, hlowers⟩
    · rw [List.append_assoc]
      exact (congrArg (taken ++ ·) (List.take_append_drop _ _)).trans hinput
    · rw [hdelivered, ← List.append_assoc]
      exact hnext

/-- After the end of the stream the reader gives up at the next piece. -/
lemma inflatePiece_stopped {s : Inflating Z} (h : OutputOk Z capacity s.output)
    (hstopped : Stopped Z s.stream) (hne : s.input ≠ []) (n : ℕ) :
    ∃ r, loop (inflateTurn Z d capacity) (n + 1) s = some r ∧
      r.2.output.delivered.length ≤ capacity ∧ r.1 = none := by
  obtain ⟨htaken, hproduced⟩ := hstopped s.input false zlibNgBufferBytes
  cases hturn : inflateTurn Z d capacity s with
  | inr s' =>
    obtain ⟨-, -, -, -, -, hprogress⟩ := inflateTurn_inr h hturn
    rcases hprogress with hpos | hpos
    · exact absurd htaken (Nat.ne_of_gt hpos)
    · exact absurd hproduced (List.length_pos_iff.1 hpos)
  | inl r =>
    obtain ⟨hle, hmore, hend⟩ := inflateTurn_inl h hturn
    refine ⟨r, loop_of_inl hturn n, hle, ?_⟩
    cases hanswer : r.1 with
    | none => rfl
    | some ended =>
      cases ended with
      | false => exact absurd (hmore hanswer).1 hne
      | true =>
        obtain ⟨-, -, -, hall, -, -⟩ := hend hanswer
        have htaken' : (inflateCall Z s).taken = 0 := htaken
        rw [htaken', List.drop_zero] at hall
        exact absurd hall hne

/-- Where the reader is after the stored bytes `done`. -/
structure ReadingOk (capacity : ℕ) (e : ZipEntry) (done : Bytes) (s : Reading Z) : Prop where
  compressedRead : s.compressedRead = done.length
  output : OutputOk Z capacity s.output
  stored : s.stream = none → e.compressionMethod = methodStore ∧ s.output.delivered = done
  inflating : ∀ stream, s.stream = some stream → e.compressionMethod = methodDeflate ∧
    (s.finished = false ∧ Z.inflate.Fed done s.output.delivered stream ∨
      s.finished = true ∧ Z.inflate.Coded done s.output.delivered ∧ Stopped Z stream)

/-- A compressed piece. -/
lemma readPiece_inflating (hZ : Z.Contract) {e : ZipEntry} {done piece : Bytes} {s : Reading Z}
    {stream : Z.inflate.State} (h : ReadingOk capacity e done s) (hne : piece ≠ [])
    (hstream : s.stream = some stream) :
    ∃ r, loop (inflateTurn Z d capacity)
        (piece.length + (capacity - s.output.size) + 1) ⟨stream, piece, s.output⟩ = some r ∧
      r.2.output.delivered.length ≤ capacity ∧ ∀ ended, r.1 = some ended →
        OutputOk Z capacity r.2.output ∧ s.finished = false ∧
        (ended = false ∧ Z.inflate.Fed (done ++ piece) r.2.output.delivered r.2.stream ∨
          ended = true ∧ Z.inflate.Coded (done ++ piece) r.2.output.delivered ∧
            Stopped Z r.2.stream) := by
  rcases (h.inflating stream hstream).2 with ⟨hactive, hfed⟩ | ⟨-, -, hstopped⟩
  · obtain ⟨r, hr, hle, hmore, hend⟩ := inflatePiece_spec (s := ⟨stream, piece, s.output⟩)
      (d := d) hZ h.output hfed (Nat.lt_succ_self _)
    refine ⟨r, hr, hle, fun ended hended => ?_⟩
    cases ended with
    | false =>
      obtain ⟨hout, hfed'⟩ := hmore hended
      exact ⟨hout, hactive, .inl ⟨rfl, hfed'⟩⟩
    | true =>
      obtain ⟨hout, hcoded⟩ := hend hended
      exact ⟨hout, hactive, .inr ⟨rfl, hcoded⟩⟩
  · obtain ⟨r, hr, hle, hnone⟩ := inflatePiece_stopped (s := ⟨stream, piece, s.output⟩)
      (d := d) h.output hstopped hne _
    refine ⟨r, hr, hle, fun ended hended => ?_⟩
    rw [hnone] at hended
    exact absurd hended (Option.some_ne_none _).symm

/-- **One piece** keeps the reader in order, or it gives up. -/
lemma readPiece_spec (hZ : Z.Contract) {e : ZipEntry} {done piece : Bytes} {s : Reading Z}
    (h : ReadingOk capacity e done s) (hne : piece ≠ []) :
    ∃ ok s', readPiece Z d capacity e piece s = some (ok, s') ∧
      s'.output.delivered.length ≤ capacity ∧
      (ok = true → ReadingOk capacity e (done ++ piece) s') := by
  have hread : s.compressedRead + piece.length = (done ++ piece).length := by
    rw [h.compressedRead, List.length_append]
  unfold readPiece
  split
  · exact ⟨false, _, rfl, h.output.size ▸ h.output.size_le,
      fun hfalse => absurd hfalse Bool.false_ne_true⟩
  split
  · next hstream =>
    obtain ⟨hle, hwritten⟩ :=
      zipOutputWrite_spec (d := d) piece h.output
    refine ⟨_, _, rfl, hle, fun hok => ?_⟩
    obtain ⟨hout, hdelivered⟩ := hwritten hok
    obtain ⟨hmethod, hdone⟩ := h.stored hstream
    exact ⟨hread, hout, fun _ => ⟨hmethod, by rw [hdelivered, hdone]⟩,
      fun stream hsome => absurd (hstream.symm.trans hsome) (Option.some_ne_none _).symm⟩
  · next stream hstream =>
    obtain ⟨r, hr, hle, hgoes⟩ :=
      readPiece_inflating (d := d) hZ h hne hstream
    refine ⟨_, _, by rw [hr]; rfl, hle, fun hok => ?_⟩
    obtain ⟨ended, hended⟩ := Option.isSome_iff_exists.1 hok
    obtain ⟨hout, hactive, hstate⟩ := hgoes ended hended
    refine ⟨hread, hout, fun hnone => absurd hnone (Option.some_ne_none _), fun stream' hsome => ?_⟩
    obtain rfl := Option.some.inj hsome
    refine ⟨(h.inflating stream hstream).1, ?_⟩
    rw [hactive, hended]
    rcases hstate with ⟨rfl, hfed⟩ | ⟨rfl, hcoded⟩
    · exact .inl ⟨rfl, hfed⟩
    · exact .inr ⟨rfl, hcoded⟩

/-- **All pieces** keep the reader in order, or it gives up. -/
lemma readPieces_spec (hZ : Z.Contract) {e : ZipEntry} {done : Bytes} {s : Reading Z}
    {pieces : List Bytes} (h : ReadingOk capacity e done s) (hne : ∀ piece ∈ pieces, piece ≠ []) :
    ∃ ok s', readPieces Z d capacity e pieces s = some (ok, s') ∧
      s'.output.delivered.length ≤ capacity ∧
      (ok = true → ReadingOk capacity e (done ++ pieces.flatten) s') := by
  induction pieces generalizing done s with
  | nil =>
    refine ⟨true, s, rfl, h.output.size ▸ h.output.size_le, fun _ => ?_⟩
    rwa [List.flatten_nil, List.append_nil]
  | cons piece pieces ih =>
    obtain ⟨ok, s', hpiece, hle, hok⟩ := readPiece_spec (d := d) hZ h
      (hne piece List.mem_cons_self)
    rw [readPieces, hpiece]
    cases ok with
    | false => exact ⟨false, s', rfl, hle, fun hfalse => absurd hfalse Bool.false_ne_true⟩
    | true =>
      rw [List.flatten_cons, ← List.append_assoc]
      exact ih (hok rfl) fun p hp => hne p (List.mem_cons_of_mem _ hp)

/-- What success means: the sizes and the checksum are those of the entry, and all the stored bytes
were read and are the contents, or a stream of them that ends exactly with the last byte. -/
structure ReadSound (Z : ZlibNg) (e : ZipEntry) (stored delivered : Bytes) : Prop where
  uncompressedSize : delivered.length = e.uncompressedSize
  compressedSize : stored.length = e.compressedSize
  crc : Z.crc32 0 delivered = e.crc
  data : e.compressionMethod = methodStore ∧ delivered = stored ∨
    e.compressionMethod = methodDeflate ∧ Z.inflate.Coded stored delivered

lemma beginStream_ok {e : ZipEntry} {stream : Option Z.inflate.State}
    (hmethod : e.compressionMethod = methodStore ∨ e.compressionMethod = methodDeflate)
    (h : beginStream Z e = some stream) :
    ReadingOk capacity e [] (beginReading Z e stream) := by
  unfold beginStream at h
  split at h
  · next hdeflate =>
    obtain ⟨i, hi, rfl⟩ := Option.map_eq_some_iff.1 h
    refine ⟨rfl, outputOk_empty, fun hnone => absurd hnone (Option.some_ne_none _),
      fun stream hsome => ?_⟩
    obtain rfl := Option.some.inj hsome
    exact ⟨hdeflate, .inl ⟨decide_eq_false (by rw [hdeflate]; decide), .init hi⟩⟩
  · next hne =>
    obtain rfl := Option.some.inj h
    exact ⟨rfl, outputOk_empty, fun _ => ⟨hmethod.resolve_right hne, rfl⟩,
      fun _ hsome => absurd hsome (Option.some_ne_none _).symm⟩

/-- **Whatever the entry**, the reader returns, has delivered no more than the capacity, and succeeds
only when everything is in order. -/
theorem zipReadCurrentEntry_sound (hZ : Z.Contract) (e : ZipEntry) (raw : RawReads) :
    ∃ ok output, zipReadCurrentEntry Z d capacity e raw = some (ok, output) ∧
      output.delivered.length ≤ capacity ∧
      (ok = true → ReadSound Z e raw.pieces.flatten output.delivered) := by
  have hempty : ∃ ok output, some (false, (⟨[], 0, 0⟩ : ZipOutput)) = some (ok, output) ∧
      output.delivered.length ≤ capacity ∧
      (ok = true → ReadSound Z e raw.pieces.flatten output.delivered) :=
    ⟨false, _, rfl, Nat.zero_le _, fun hfalse => absurd hfalse Bool.false_ne_true⟩
  unfold zipReadCurrentEntry
  split
  · exact hempty
  next hreadable =>
  have hmethod : e.compressionMethod = methodStore ∨ e.compressionMethod = methodDeflate := by
    simp only [readable, Bool.not_eq_false, decide_eq_true_eq] at hreadable
    exact hreadable.2.2.2.1
  split
  · exact hempty
  next stream hstream =>
  split
  · exact hempty
  have hbegin : ReadingOk capacity e [] (beginReading Z e stream) := beginStream_ok hmethod hstream
  obtain ⟨ok, s, hread, hle, hok⟩ := readPieces_spec (d := d) hZ hbegin raw.ne_nil
  rw [hread]
  refine ⟨_, s.output, rfl, hle, fun hsuccess => ?_⟩
  simp only [readComplete, Bool.and_eq_true, decide_eq_true_eq] at hsuccess
  obtain ⟨⟨⟨rfl, -⟩, -⟩, ⟨⟨⟨hfinished, hcompressed⟩, huncompressed⟩, hcrc⟩, -⟩ := hsuccess
  have hs := hok rfl
  rw [List.nil_append] at hs
  refine ⟨by rw [← hs.output.size, huncompressed], by rw [← hs.compressedRead, hcompressed],
    by rw [← hs.output.crc32, hcrc], ?_⟩
  cases hstream' : s.stream with
  | none => exact .inl (hs.stored hstream')
  | some i =>
    obtain ⟨hdeflate, hfalse | ⟨-, hcoded, -⟩⟩ := hs.inflating i hstream'
    · exact absurd (hfalse.1.symm.trans hfinished) Bool.false_ne_true
    · exact .inr ⟨hdeflate, hcoded⟩

lemma readable_of_success {e : ZipEntry} {raw : RawReads} {output : ZipOutput}
    (h : zipReadCurrentEntry Z d capacity e raw = some (true, output)) :
    readable capacity e = true := by
  unfold zipReadCurrentEntry at h
  split at h
  · exact absurd (Prod.mk.inj (Option.some.inj h)).1 Bool.false_ne_true
  · next hreadable => simpa using hreadable

/-- **The reader refines the one for whole streams**, when that one inflates the stored bytes to what
the decompressor makes of them. -/
theorem readCurrentEntry_of_success (hZ : Z.Contract) {L : ZipLib} {e : ZipEntry} {raw : RawReads}
    {output : ZipOutput} (hcrc : ∀ bytes, L.crc32 bytes = Z.crc32 0 bytes)
    (hinflate : ∀ content, Z.inflate.Coded e.data content → L.inflate e.data = some content)
    (hraw : raw.pieces.flatten = e.data)
    (h : zipReadCurrentEntry Z d capacity e raw = some (true, output)) :
    readCurrentEntry L e capacity = some output.delivered := by
  obtain ⟨ok, output', hread, hcapacity, hsound⟩ :=
    @zipReadCurrentEntry_sound Z d capacity hZ e raw
  obtain ⟨rfl, rfl⟩ := Prod.mk.inj (Option.some.inj (h.symm.trans hread))
  have hs := hsound rfl
  rw [hraw] at hs
  have hreadable := readable_of_success h
  simp only [readable, decide_eq_true_eq] at hreadable
  obtain ⟨hcompressed, huncompressed, hclear, hmethod, hfits⟩ := hreadable
  have hcontent : decompress L e = some output.delivered := by
    unfold decompress
    rcases hs.data with ⟨hstore, hdata⟩ | ⟨hdeflate, hcoded⟩
    · rw [if_pos hstore, hdata]
    · rw [if_neg (by rw [hdeflate]; decide)]
      exact hinflate _ hcoded
  unfold readCurrentEntry
  simp only [hcompressed, huncompressed, hclear, hmethod, hfits, hcontent, hs.compressedSize,
    hs.uncompressedSize, hcrc, hs.crc, hcapacity, and_self, guard_true, Option.pure_def,
    Option.bind_eq_bind, Option.bind_some]

end Hostile

end Wpm.Archive
