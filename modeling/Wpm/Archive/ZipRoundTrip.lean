import Mathlib.Logic.Relation
import Wpm.Archive.ZipRead

/-!
What is written to a zip entry and read back.

The reader gives the decompressor a piece of the stored bytes until it has taken all of it, and then
turns to the next piece. `LastCall` is the call that takes the last stored byte. When it fills its
room and something is left to come, the reader does not call again and gives up on the entry.
-/

namespace Wpm.Archive

open Wpm.Lib.CString Wpm.Lib.Loop Wpm.Lib.Streaming

/-! ### The last call -/

section LastCall

variable (Z : ZlibNg)

/-- Where the calls of a reader are: the state of the decompressor, the rest of its piece, and the
pieces ahead. -/
abbrev CallState := Z.inflate.State × Bytes × List Bytes

/-- The reader takes up the next piece, or gives the rest of its piece to the decompressor. -/
inductive NextCall : CallState Z → CallState Z → Prop
  | piece (i : Z.inflate.State) (piece : Bytes) (pieces : List Bytes) :
      NextCall (i, [], piece :: pieces) (i, piece, pieces)
  | call (i : Z.inflate.State) (input : Bytes) (pieces : List Bytes) : input ≠ [] →
      (Z.inflate.call i input false zlibNgBufferBytes).status = .ok →
      NextCall (i, input, pieces) ((Z.inflate.call i input false zlibNgBufferBytes).state,
        input.drop (Z.inflate.call i input false zlibNgBufferBytes).taken, pieces)

/-- The reader of `pieces` comes to this state. -/
def CallsReach (pieces : List Bytes) (s : CallState Z) : Prop :=
  ∃ i, Z.inflate.init = some i ∧ Relation.ReflTransGen (NextCall Z) (i, [], pieces) s

/-- The call that takes the last byte of the last piece. -/
def LastCall (pieces : List Bytes) (t : Turn Z.inflate.State UInt8) : Prop :=
  ∃ i input, CallsReach Z pieces (i, input, []) ∧ input ≠ [] ∧
    t = Z.inflate.call i input false zlibNgBufferBytes ∧ t.taken = input.length

variable {Z}

lemma CallsReach.next {pieces : List Bytes} {s s' : CallState Z} (h : CallsReach Z pieces s)
    (hnext : NextCall Z s s') : CallsReach Z pieces s' := by
  obtain ⟨i, hi, hreach⟩ := h
  exact ⟨i, hi, hreach.tail hnext⟩

lemma nextCall_rightUnique : Relator.RightUnique (NextCall Z) := by
  intro s s' s'' h h'
  cases h with
  | piece => cases h' with
    | piece => rfl
    | call _ _ _ hne => exact absurd rfl hne
  | call _ _ _ hne => cases h' with
    | piece => exact absurd rfl hne
    | call => rfl

/-- Behind the last call there is no other one. -/
lemma eq_of_last {s s' : CallState Z} (hlast : s.2.2 = [])
    (htaken : (Z.inflate.call s.1 s.2.1 false zlibNgBufferBytes).taken = s.2.1.length)
    (h : Relation.ReflTransGen (NextCall Z) s s') (hne : s'.2.1 ≠ []) : s' = s := by
  have hend : ∀ {i : Z.inflate.State} {u : CallState Z},
      Relation.ReflTransGen (NextCall Z) (i, [], []) u → u = (i, [], []) := by
    intro i u hu
    rcases Relation.ReflTransGen.cases_head hu with heq | ⟨v, hv, -⟩
    · exact heq.symm
    · cases hv with
      | call _ _ _ hne => exact absurd rfl hne
  rcases Relation.ReflTransGen.cases_head h with heq | ⟨v, hv, hrest⟩
  · exact heq.symm
  · cases hv with
    | piece => exact absurd hlast (List.cons_ne_nil _ _)
    | call i input pieces =>
      obtain rfl : pieces = [] := hlast
      have hdrop : input.drop (Z.inflate.call i input false zlibNgBufferBytes).taken = [] :=
        List.drop_eq_nil_of_le (Nat.le_of_eq htaken.symm)
      rw [hdrop] at hrest
      exact absurd (congrArg (fun u : CallState Z => u.2.1) (hend hrest)) hne

/-- **There is one last call.** -/
lemma LastCall.unique {pieces : List Bytes} {t t' : Turn Z.inflate.State UInt8}
    (h : LastCall Z pieces t) (h' : LastCall Z pieces t') : t = t' := by
  obtain ⟨i, input, ⟨i₀, hi₀, hreach⟩, hne, rfl, htaken⟩ := h
  obtain ⟨i', input', ⟨i₀', hi₀', hreach'⟩, hne', rfl, htaken'⟩ := h'
  obtain rfl := Option.some.inj (hi₀.symm.trans hi₀')
  have heq : (i, input, ([] : List Bytes)) = (i', input', []) := by
    rcases Relation.ReflTransGen.total_of_right_unique nextCall_rightUnique hreach hreach' with
      hmore | hmore
    · exact (eq_of_last rfl htaken hmore hne').symm
    · exact eq_of_last rfl htaken' hmore hne
  obtain ⟨rfl, hinput⟩ := Prod.mk.inj heq
  rw [(Prod.mk.inj hinput).1]

end LastCall

/-! ### Reading what was written -/

section Written

variable {Z : ZlibNg} {d : Destination} {capacity : ℕ}

lemma Destination.Faithful.written_eq (h : d.Faithful) (delivered data : Bytes) :
    d.written delivered data = (true, data.length) := by
  unfold Destination.written
  cases hfile : d.file with
  | none => rfl
  | some writeFile => exact h.file writeFile hfile delivered data

lemma Destination.Faithful.hashed_eq (h : d.Faithful) (delivered data : Bytes) :
    d.hashed delivered data = true := by
  unfold Destination.hashed
  cases hhash : d.hash with
  | none => rfl
  | some update => exact h.hash update hhash delivered data

/-- A destination that takes everything takes what there is room for. -/
lemma zipOutputWrite_faithful (hdest : d.Faithful) {output : ZipOutput} {data : Bytes}
    (hroom : output.size + data.length ≤ capacity) :
    (zipOutputWrite Z d capacity output data).1 = true := by
  unfold zipOutputWrite
  rw [if_neg (by omega), hdest.written_eq, hdest.hashed_eq, if_neg (by simp), if_neg (by decide)]

lemma writeProduced_faithful (hdest : d.Faithful) {s : Inflating Z}
    (hroom : s.output.size + (inflateCall Z s).produced.length ≤ capacity) :
    (writeProduced Z d capacity s).1 = true := by
  unfold writeProduced
  split
  · rfl
  · exact zipOutputWrite_faithful hdest hroom

/-- Why the reader gives up within a piece. -/
lemma inflateTurn_none {s s' : Inflating Z}
    (hturn : inflateTurn Z d capacity s = .inl (none, s')) :
    s.input ≠ [] ∧ ((writeProduced Z d capacity s).1 = false ∨
      (inflateCall Z s).status = .error ∨
      (inflateCall Z s).status = .streamEnd ∧ s.input.drop (inflateCall Z s).taken ≠ [] ∨
      (inflateCall Z s).status = .ok ∧ (inflateCall Z s).taken = 0 ∧
        (inflateCall Z s).produced = []) := by
  unfold inflateTurn at hturn
  split at hturn
  · exact absurd hturn (by simp)
  next hne =>
  refine ⟨hne, ?_⟩
  split at hturn
  · next hfailed => exact .inl hfailed
  split at hturn
  · next hstatus =>
    split at hturn
    · exact absurd hturn (by simp)
    · next hrest => exact .inr (.inr (.inl ⟨hstatus, hrest⟩))
  · next hstatus => exact .inr (.inl hstatus)
  · next hstatus =>
    split at hturn
    · next hstuck => exact .inr (.inr (.inr ⟨hstatus, hstuck⟩))
    · exact absurd hturn (by simp)

/-- The reader of a correct stream does not give up. -/
lemma inflateTurn_ne_none {content stream done : Bytes} {s s' : Inflating Z}
    (hdest : d.Faithful) (hcap : content.length ≤ capacity)
    (hout : OutputOk Z capacity s.output) (hstarts : done ++ s.input <+: stream)
    (hdecoding : s.input ≠ [] → Coder.Decoding content stream done s.output.delivered s.input
      zlibNgBufferBytes (inflateCall Z s)) :
    inflateTurn Z d capacity s ≠ .inl (none, s') := by
  intro hturn
  obtain ⟨hne, hwhy⟩ := inflateTurn_none hturn
  have hd := hdecoding hne
  have hlen := hd.correct.length_le
  rw [List.length_append, ← hout.size] at hlen
  rcases hwhy with hfailed | herror | ⟨hend, hrest⟩ | ⟨hok, htaken, hproduced⟩
  · rw [writeProduced_faithful hdest (by omega)] at hfailed
    exact absurd hfailed (by decide)
  · exact hd.ne_error herror
  · have hall := hstarts.length_le
    rw [← (hd.ended hend).1, List.length_append, List.length_append, List.length_take] at hall
    exact hrest (List.drop_eq_nil_of_le (by omega))
  · have hpos := List.length_pos_iff.2 hne
    rcases hd.stops hok with hall | hfull
    · omega
    · rw [hproduced] at hfull
      exact absurd hfull (by decide)

/-- The reader of `pieces` is at a piece, behind the stored bytes `done`, with `ahead` to come. -/
structure AtPiece (Z : ZlibNg) (capacity : ℕ) (pieces : List Bytes) (done : Bytes)
    (ahead : List Bytes) (s : Inflating Z) : Prop where
  output : OutputOk Z capacity s.output
  fed : Z.inflate.Fed done s.output.delivered s.stream
  reach : CallsReach Z pieces (s.stream, s.input, ahead)

/-- **A piece of a correct stream**: the stream ends with it, in the last call, or it is taken whole
and the stream has not ended. -/
lemma inflatePiece_written {content stream done : Bytes} {s : Inflating Z}
    {pieces ahead : List Bytes} {n : ℕ} (hD : Z.inflate.Decodes content stream)
    (hdest : d.Faithful) (hcap : content.length ≤ capacity)
    (h : AtPiece Z capacity pieces done ahead s) (hne : s.input ≠ [])
    (hstream : done ++ s.input ++ ahead.flatten = stream) (hn : turnsLeft capacity s < n) :
    ∃ r, loop (inflateTurn Z d capacity) n s = some r ∧
      ((r.1 = some true ∧ ahead.flatten = [] ∧ OutputOk Z capacity r.2.output ∧
          r.2.output.delivered = content ∧
          (ahead = [] → ∃ t, LastCall Z pieces t ∧ t.status = .streamEnd)) ∨
        (r.1 = some false ∧ r.2.input = [] ∧
          AtPiece Z capacity pieces (done ++ s.input) ahead r.2 ∧
          (ahead = [] → ∃ t, LastCall Z pieces t ∧ t.status = .ok))) := by
  have hdecoding : ∀ {taken : Bytes} {s' : Inflating Z}, taken ++ s'.input = s.input →
      AtPiece Z capacity pieces (done ++ taken) ahead s' → s'.input ≠ [] →
      Coder.Decoding content stream (done ++ taken) s'.output.delivered s'.input
        zlibNgBufferBytes (inflateCall Z s') := by
    intro taken s' hinput hs' hne'
    refine hD.call _ _ _ _ _ hs'.fed ?_ hne' (by decide)
    rw [List.append_assoc, hinput]
    exact ⟨ahead.flatten, hstream⟩
  have hpart : ∀ {taken : Bytes} {s' : Inflating Z}, taken ++ s'.input = s.input →
      done ++ taken ++ s'.input <+: stream := by
    intro taken s' hinput
    rw [List.append_assoc, hinput]
    exact ⟨ahead.flatten, hstream⟩
  refine @loop_spec _ _ (inflateTurn Z d capacity)
    (fun s' => ∃ taken, taken ++ s'.input = s.input ∧
      AtPiece Z capacity pieces (done ++ taken) ahead s' ∧
      (s'.input = [] → ahead = [] → ∃ t, LastCall Z pieces t ∧ t.status = .ok)) _
    (turnsLeft capacity) ?_ ?_ n s
    ⟨[], rfl, by rwa [List.append_nil], fun hnil => absurd hnil hne⟩ hn
  · rintro s' ⟨answer, s''⟩ ⟨taken, hinput, hs', hlast⟩ hturn
    obtain ⟨-, hmore, hend⟩ := inflateTurn_inl hs'.output hturn
    cases answer with
    | none =>
      exact absurd hturn (inflateTurn_ne_none hdest hcap hs'.output (hpart hinput)
        (hdecoding hinput hs'))
    | some ended =>
      cases ended with
      | false =>
        obtain ⟨hnil, rfl⟩ := hmore rfl
        rw [hnil, List.append_nil] at hinput
        exact .inr ⟨rfl, hnil, hinput ▸ hs', hlast hnil⟩
      | true =>
        obtain ⟨rfl, hne', hstatus, hall, hdelivered, hout⟩ := hend rfl
        obtain ⟨hwhole, hcontent⟩ := (hdecoding hinput hs' hne').ended hstatus
        have htaken : (inflateCall Z s').taken = s'.input.length :=
          le_antisymm (Z.inflate.taken_le _ _ _ _) (List.drop_eq_nil_iff.1 hall)
        refine .inl ⟨rfl, ?_, hout, hdelivered.trans hcontent, fun hahead => ?_⟩
        · rw [htaken, List.take_length, List.append_assoc, hinput, ← hstream] at hwhole
          exact List.append_right_eq_self.1 hwhole.symm
        · exact ⟨_, ⟨s'.stream, s'.input, hahead ▸ hs'.reach, hne', rfl, htaken⟩, hstatus⟩
  · rintro s' s'' ⟨taken, hinput, hs', hlast⟩ hturn
    have hlowers := inflateTurn_lowers hs'.output hturn
    obtain ⟨rfl, hne', hstatus, hdelivered, hout, -⟩ := inflateTurn_inr hs'.output hturn
    have hfed := hs'.fed.call s'.input false zlibNgBufferBytes hstatus
    refine ⟨⟨taken ++ s'.input.take (inflateCall Z s').taken, ?_, ⟨hout, ?_, ?_⟩, ?_⟩, hlowers⟩
    · rw [List.append_assoc]
      exact (congrArg (taken ++ ·) (List.take_append_drop _ _)).trans hinput
    · rw [hdelivered, ← List.append_assoc]
      exact hfed
    · exact hs'.reach.next (.call _ _ _ hne' hstatus)
    · intro hall hahead
      exact ⟨_, ⟨s'.stream, s'.input, hahead ▸ hs'.reach, hne', rfl,
        le_antisymm (Z.inflate.taken_le _ _ _ _) (List.drop_eq_nil_iff.1 hall)⟩, hstatus⟩

/-- **The pieces of a correct stream** are all read, and the stream has ended if its last call says
so. -/
lemma readPieces_written {e : ZipEntry} {content done : Bytes} {s : Reading Z}
    {i : Z.inflate.State} {pieces ahead : List Bytes} (hD : Z.inflate.Decodes content e.data)
    (hdest : d.Faithful) (hcap : content.length ≤ capacity)
    (hs : s.stream = some i) (hactive : s.finished = false)
    (h : AtPiece Z capacity pieces done ahead ⟨i, [], s.output⟩)
    (hread : (s.compressedRead : ℤ) + ahead.flatten.length = e.compressedSize)
    (hstream : done ++ ahead.flatten = e.data) (hne : ∀ piece ∈ ahead, piece ≠ [])
    (hlast : ahead = [] → ∃ t, LastCall Z pieces t ∧ t.status = .ok) :
    ∃ s', readPieces Z d capacity e ahead s = some (true, s') ∧ s'.stream.isSome ∧
      (s'.compressedRead : ℤ) = e.compressedSize ∧ OutputOk Z capacity s'.output ∧
      (s'.finished = true ∧ s'.output.delivered = content ∧
          (∃ t, LastCall Z pieces t ∧ t.status = .streamEnd) ∨
        s'.finished = false ∧ ∃ t, LastCall Z pieces t ∧ t.status = .ok) := by
  induction ahead generalizing done s i with
  | nil =>
    refine ⟨s, rfl, by rw [hs]; rfl, by simpa using hread, h.output, .inr ⟨hactive, hlast rfl⟩⟩
  | cons piece ahead ih =>
    have hpiece := hne piece List.mem_cons_self
    rw [List.flatten_cons, ← List.append_assoc] at hstream
    rw [List.flatten_cons, List.length_append] at hread
    obtain ⟨r, hr, hcases⟩ := inflatePiece_written (s := ⟨i, piece, s.output⟩)
      (d := d) hD hdest hcap
      ⟨h.output, h.fed, h.reach.next (.piece _ _ _)⟩ hpiece hstream (Nat.lt_succ_self _)
    have hreadPiece : readPiece Z d capacity e piece s = some (r.1.isSome,
        ⟨s.compressedRead + piece.length, s.finished || r.1 == some true, some r.2.stream,
          r.2.output⟩) := by
      unfold readPiece
      rw [if_neg (by omega), hs]
      exact congrArg (Option.map _) hr
    rw [readPieces, hreadPiece]
    rcases hcases with ⟨hend, hahead, hout, hdelivered, hcall⟩ | ⟨hmore, hnil, hnext, hcall⟩
    · have hahead' : ahead = [] := by
        cases ahead with
        | nil => rfl
        | cons piece' ahead' =>
          rw [List.flatten_cons] at hahead
          exact absurd (List.append_eq_nil_iff.1 hahead).1
            (hne piece' (List.mem_cons_of_mem _ List.mem_cons_self))
      subst hahead'
      rw [hend]
      refine ⟨_, rfl, rfl, by simpa using hread, hout, .inl ⟨?_, hdelivered, hcall rfl⟩⟩
      rw [hactive]
      rfl
    · rw [hmore]
      have hstart : AtPiece Z capacity pieces (done ++ piece) ahead ⟨r.2.stream, [], r.2.output⟩ := by
        rw [← hnil]
        exact hnext
      refine ih rfl (by rw [hactive]; rfl) hstart ?_ hstream
        (fun p hp => hne p (List.mem_cons_of_mem _ hp)) hcall
      push_cast
      omega

/-- The pieces of a stored entry are all written. -/
lemma readPieces_stored {e : ZipEntry} {s : Reading Z} {ahead : List Bytes}
    (hdest : d.Faithful) (hs : s.stream = none) (h : OutputOk Z capacity s.output)
    (hread : (s.compressedRead : ℤ) + ahead.flatten.length = e.compressedSize)
    (hcap : s.output.size + ahead.flatten.length ≤ capacity) :
    ∃ s', readPieces Z d capacity e ahead s = some (true, s') ∧ s'.stream = none ∧
      s'.finished = s.finished ∧ (s'.compressedRead : ℤ) = e.compressedSize ∧
      OutputOk Z capacity s'.output ∧
      s'.output.delivered = s.output.delivered ++ ahead.flatten := by
  induction ahead generalizing s with
  | nil => exact ⟨s, rfl, hs, rfl, by simpa using hread, h, by simp⟩
  | cons piece ahead ih =>
    rw [List.flatten_cons, List.length_append] at hread hcap
    have htrue : (zipOutputWrite Z d capacity s.output piece).1 = true :=
      zipOutputWrite_faithful hdest (by omega)
    obtain ⟨hout, hdelivered⟩ := (zipOutputWrite_spec piece h).2 htrue
    have hreadPiece : readPiece Z d capacity e piece s = some (true, { s with
        compressedRead := s.compressedRead + piece.length
        output := (zipOutputWrite Z d capacity s.output piece).2 }) := by
      unfold readPiece
      rw [if_neg (by omega), hs, htrue]
    have hsize := hout.size
    rw [hdelivered, List.length_append, ← h.size] at hsize
    rw [readPieces, hreadPiece]
    obtain ⟨s', hs', hnone, hfinished, hcompressed, hout', hall⟩ := ih (s := { s with
        compressedRead := s.compressedRead + piece.length
        output := (zipOutputWrite Z d capacity s.output piece).2 }) hs hout
      (by push_cast; omega) (by rw [hsize]; omega)
    refine ⟨s', hs', hnone, hfinished, hcompressed, hout', ?_⟩
    rw [hall, hdelivered, List.flatten_cons, List.append_assoc]

/-- What the calls of a reader have taken, and what is to come, is the stored bytes. -/
lemma CallsReach.fed {pieces : List Bytes} {s : CallState Z} (h : CallsReach Z pieces s) :
    ∃ done out, Z.inflate.Fed done out s.1 ∧ done ++ s.2.1 ++ s.2.2.flatten = pieces.flatten := by
  obtain ⟨i, hi, hreach⟩ := h
  induction hreach with
  | refl => exact ⟨[], [], .init hi, rfl⟩
  | tail _ hnext ih =>
    obtain ⟨done, out, hfed, hall⟩ := ih
    cases hnext with
    | piece => exact ⟨done, out, hfed, by simpa using hall⟩
    | call i input pieces hne hok =>
      refine ⟨_, _, hfed.call input false zlibNgBufferBytes hok, ?_⟩
      rw [List.append_assoc done, List.take_append_drop]
      exact hall

/-- The last call of a correct stream ends it, unless it fills its room. -/
lemma LastCall.full {content : Bytes} {pieces : List Bytes} {t : Turn Z.inflate.State UInt8}
    (hD : Z.inflate.Decodes content pieces.flatten) (h : LastCall Z pieces t)
    (hne : t.status ≠ .streamEnd) :
    t.produced.length = zlibNgBufferBytes ∧ zlibNgBufferBytes ≤ content.length := by
  obtain ⟨i, input, hreach, hinput, rfl, htaken⟩ := h
  obtain ⟨done, out, hfed, hall⟩ := hreach.fed
  have hwhole : done ++ input = pieces.flatten := by simpa using hall
  have hd := hD.call done out i input zlibNgBufferBytes hfed ⟨[], by simpa using hwhole⟩ hinput
    (by decide)
  have hfull : ¬ (Z.inflate.call i input false zlibNgBufferBytes).produced.length <
      zlibNgBufferBytes := by
    intro hroom
    refine hne (hd.ends ?_ hroom)
    rw [htaken, List.take_length, hwhole]
  have hroom := Z.inflate.produced_le i input false zlibNgBufferBytes
  have hlen := hd.correct.length_le
  rw [List.length_append] at hlen
  omega

lemma Written.readable {content : Bytes} {e : ZipEntry} (hw : Written Z content e)
    (hcap : content.length ≤ capacity) : readable capacity e = true := by
  have hmethod : e.compressionMethod = methodStore ∨ e.compressionMethod = methodDeflate :=
    hw.data.imp And.left And.left
  unfold Archive.readable
  rw [decide_eq_true_eq, hw.uncompressedSize, hw.compressedSize]
  exact ⟨by omega, by omega, hw.clear, hmethod, by omega⟩

/-- **What was written is read back**, unless the last call of the decompressor does not say that the
stream has ended. -/
lemma zipReadCurrentEntry_written (hZ : Z.Contract) {content : Bytes} {e : ZipEntry}
    {raw : RawReads} (hw : Written Z content e) (hdest : d.Faithful)
    (hcap : content.length ≤ capacity) (hraw : raw.Faithful e) :
    ∃ ok output, zipReadCurrentEntry Z d capacity e raw = some (ok, output) ∧
      (ok = true ∧ output.delivered = content ∧ (e.compressionMethod = methodStore ∨
          ∃ t, LastCall Z raw.pieces t ∧ t.status = .streamEnd) ∨
        ok = false ∧ e.compressionMethod = methodDeflate ∧
          ∃ t, LastCall Z raw.pieces t ∧ t.status = .ok) := by
  have hreadable := hw.readable hcap
  have hread : ((0 : ℕ) : ℤ) + raw.pieces.flatten.length = e.compressedSize := by
    rw [hraw.flatten, hw.compressedSize]
    exact Int.zero_add _
  have hcomplete : ∀ {s : Reading Z}, (s.compressedRead : ℤ) = e.compressedSize →
      OutputOk Z capacity s.output → s.output.delivered = content → s.finished = true →
      (s.stream.map Z.inflate.close).getD true = true → readComplete Z e s = true := by
    intro s hcompressed hout hdelivered hfinished hclose
    unfold readComplete
    rw [hfinished, hcompressed, hout.size, hout.crc32, hdelivered, hw.uncompressedSize, hw.crc,
      hclose]
    simp
  unfold zipReadCurrentEntry
  rw [hreadable, if_neg (by decide), hraw.opens, hraw.ends, hraw.closes]
  rcases hw.data with ⟨hstore, hdata⟩ | ⟨hdeflate, hcoded⟩
  · have hbegin : beginStream Z e = some none := by
      unfold beginStream
      rw [hstore]
      exact if_neg (by decide)
    have hroom : 0 + raw.pieces.flatten.length ≤ capacity := by
      rw [hraw.flatten, hdata, Nat.zero_add]
      exact hcap
    obtain ⟨s, hs, hnone, hfinished, hcompressed, hout, hdelivered⟩ :=
      readPieces_stored (s := beginReading Z e none) hdest rfl outputOk_empty hread hroom
    have hcontent : s.output.delivered = content := by
      rw [hdelivered, hraw.flatten, hdata]
      rfl
    have hall := hcomplete hcompressed hout hcontent
      (hfinished.trans (decide_eq_true hstore)) (by rw [hnone]; rfl)
    rw [hbegin]
    refine ⟨true, s.output, ?_, .inl ⟨rfl, hcontent, .inl hstore⟩⟩
    simp only [Bool.true_eq_false, if_false, hs, Option.map_some, hall, Bool.and_true]
  · have hD := hZ.decodes _ _ hcoded
    obtain ⟨i, hi⟩ := Option.ne_none_iff_exists'.1 hD.begins
    have hbegin : beginStream Z e = some (some i) := by
      unfold beginStream
      rw [if_pos hdeflate, hi]
      rfl
    have hpieces : raw.pieces = [] → ∃ t, LastCall Z raw.pieces t ∧ t.status = .ok := by
      intro hnil
      refine absurd ?_ (hZ.stream_ne_nil _ _ hcoded)
      rw [← hraw.flatten, hnil, List.flatten_nil]
    have hstart : AtPiece Z capacity raw.pieces [] raw.pieces ⟨i, [], ⟨[], 0, 0⟩⟩ :=
      ⟨outputOk_empty, .init hi, i, hi, .refl⟩
    obtain ⟨s, hs, hsome, hcompressed, hout, hcases⟩ := readPieces_written
      (s := beginReading Z e (some i)) hD hdest hcap rfl
      (decide_eq_false (by rw [hdeflate]; decide)) hstart hread hraw.flatten raw.ne_nil hpieces
    rw [hbegin]
    simp only [Bool.true_eq_false, if_false, hs, Option.map_some, Bool.true_and]
    rcases hcases with ⟨hfinished, hcontent, hlast⟩ | ⟨hactive, hlast⟩
    · have hclose : (s.stream.map Z.inflate.close).getD true = true := by
        cases hstream : s.stream with
        | none => rfl
        | some j => exact hD.closes j
      exact ⟨_, s.output, rfl, .inl ⟨hcomplete hcompressed hout hcontent hfinished hclose, hcontent,
        .inr hlast⟩⟩
    · refine ⟨_, s.output, rfl, .inr ⟨?_, hdeflate, hlast⟩⟩
      unfold readComplete
      rw [hactive]
      rfl

end Written

/-- The entry is read, and the contents are these. -/
def ReadsBack (Z : ZlibNg) (destination : Destination) (capacity : ℕ) (e : ZipEntry) (raw : RawReads)
    (content : Bytes) : Prop :=
  ∃ output, zipReadCurrentEntry Z destination capacity e raw = some (true, output) ∧
    output.delivered = content

/-- **Contents of zip entries.** Whatever the entry, the reader returns, delivers no more than the
capacity, and succeeds only when sizes, checksum and end of the stream are right. Every file is
written; it is read back exactly if it is stored or the last call of the decompressor leaves room
or ends the stream, which is always so when the file is smaller than a buffer. -/
theorem zipContents_roundTrip (Z : ZlibNg) (M : Memory) (hZ : Z.Contract) :
    (∀ destination capacity e raw, ∃ ok output,
      zipReadCurrentEntry Z destination capacity e raw = some (ok, output) ∧
      output.delivered.length ≤ capacity ∧
      (ok = true → ReadSound Z e raw.pieces.flatten output.delivered)) ∧
    ∀ path attributes (file : File), ∃ e,
      (zipAddFile Z M path attributes file).run = some (some e) ∧
      ∀ (destination : Destination) capacity (raw : RawReads), destination.Faithful →
        file.content.length ≤ capacity → raw.Faithful e →
        (ReadsBack Z destination capacity e raw file.content ↔
          e.compressionMethod = methodStore ∨ ∀ t, LastCall Z raw.pieces t →
            t.produced.length < zlibNgBufferBytes ∨ t.status = .streamEnd) ∧
        (file.content.length < zlibNgBufferBytes →
          ReadsBack Z destination capacity e raw file.content) := by
  refine ⟨fun _ _ e raw => zipReadCurrentEntry_sound hZ e raw, fun path attributes file => ?_⟩
  obtain ⟨e, he, hw⟩ := zipAddFile_spec (M := M) hZ path attributes file
  refine ⟨e, he, fun destination capacity raw hdest hcap hraw => ?_⟩
  obtain ⟨ok, output, hread, hcases⟩ := zipReadCurrentEntry_written hZ hw hdest hcap hraw
  have hfull : e.compressionMethod = methodDeflate → ∀ t, LastCall Z raw.pieces t → t.status = .ok →
      t.produced.length = zlibNgBufferBytes ∧ zlibNgBufferBytes ≤ file.content.length := by
    intro hdeflate t ht hok
    rcases hw.data with ⟨hstore, -⟩ | ⟨-, hcoded⟩
    · exact absurd (hdeflate.symm.trans hstore) (by decide)
    · exact ht.full (hraw.flatten ▸ hZ.decodes _ _ hcoded) (by rw [hok]; decide)
  rcases hcases with ⟨rfl, hcontent, hwhy⟩ | ⟨rfl, hdeflate, t, ht, hok⟩
  · have hback : ReadsBack Z destination capacity e raw file.content := ⟨output, hread, hcontent⟩
    refine ⟨⟨fun _ => ?_, fun _ => hback⟩, fun _ => hback⟩
    exact hwhy.imp_right fun ⟨t, ht, hend⟩ t' ht' => .inr (ht.unique ht' ▸ hend)
  · obtain ⟨hproduced, hle⟩ := hfull hdeflate t ht hok
    have hfails : ¬ ReadsBack Z destination capacity e raw file.content := by
      rintro ⟨output', hread', -⟩
      rw [hread] at hread'
      exact absurd (Prod.mk.inj (Option.some.inj hread')).1 (by decide)
    refine ⟨⟨fun hback => absurd hback hfails, ?_⟩, fun hlt => absurd hle (by omega)⟩
    rintro (hstore | hall)
    · exact absurd (hdeflate.symm.trans hstore) (by decide)
    · rcases hall t ht with hroom | hend
      · exact absurd hproduced (Nat.ne_of_lt hroom)
      · exact absurd (hok.symm.trans hend) (by decide)

/-! ### A coder that gives out nothing before it has everything -/

section Sample

open Blocking

/-- A code that marks each byte, and stands for no bytes as deflate does. -/
def escape : Bytes → Bytes
  | [] => [3, 0]
  | b :: bytes => 1 :: b :: escape bytes

def unescape : Bytes → Option Bytes
  | [3, 0] => some []
  | 1 :: b :: bytes => (unescape bytes).map (b :: ·)
  | _ => none

lemma unescape_escape (bytes : Bytes) : unescape (escape bytes) = some bytes := by
  induction bytes with
  | nil => rfl
  | cons b bytes ih => rw [escape, unescape, ih, Option.map_some]

lemma eq_escape_of_unescape {code bytes : Bytes} (h : unescape code = some bytes) :
    code = escape bytes := by
  fun_induction unescape code generalizing bytes with
  | case1 =>
    obtain rfl := Option.some.inj h
    rfl
  | case2 b code ih =>
    obtain ⟨bytes', hbytes', rfl⟩ := Option.map_eq_some_iff.1 h
    rw [escape, ih hbytes']
  | case3 => exact absurd h (Option.some_ne_none _).symm

lemma eq_of_escape_isPrefix : ∀ {bytes bytes' : Bytes}, escape bytes <+: escape bytes' →
    bytes = bytes'
  | [], [], _ => rfl
  | [], _ :: _, h => absurd (List.cons_prefix_cons.1 h).1 (by decide)
  | _ :: _, [], h => absurd (List.cons_prefix_cons.1 h).1 (by decide)
  | b :: bytes, b' :: bytes', h => by
    obtain ⟨rfl, hrest⟩ := List.cons_prefix_cons.1 (List.cons_prefix_cons.1 h).2
    rw [eq_of_escape_isPrefix hrest]

lemma length_escape (bytes : Bytes) : (escape bytes).length = 2 * bytes.length + 2 := by
  induction bytes with
  | nil => rfl
  | cons b bytes ih =>
    rw [escape, List.length_cons, List.length_cons, ih, List.length_cons]
    omega

def escapeCode : PrefixCode UInt8 UInt8 where
  enc := escape
  dec := unescape
  dec_eq_some := ⟨eq_escape_of_unescape, fun h => h ▸ unescape_escape _⟩
  eq_of_enc_isPrefix := eq_of_escape_isPrefix
  enc_ne_nil bytes := by cases bytes <;> exact List.cons_ne_nil _ _

/-- A bit of the checksum of zip files. -/
def crcBit (crc : ℕ) : ℕ := if crc % 2 = 1 then crc / 2 ^^^ 0xEDB88320 else crc / 2

def crcByte (crc : ℕ) (b : UInt8) : ℕ := crcBit^[8] (crc ^^^ b.toNat)

/-- Calls that follow the contract: a decompressor that takes the whole stream before it gives
anything out. No sample is compressed. -/
def sampleZlibNg : ZlibNg where
  deflate := escapeCode.encoder
  inflate := escapeCode.decoder
  crc32 crc bytes := bytes.foldl crcByte (crc ^^^ 0xFFFFFFFF) ^^^ 0xFFFFFFFF
  compress2 _ := none
  crc32_nil crc := by
    rw [List.foldl_nil, Nat.xor_assoc, Nat.xor_self, Nat.xor_zero]
  crc32_append crc x y := by
    rw [List.foldl_append, Nat.xor_assoc (List.foldl _ _ x), Nat.xor_self, Nat.xor_zero]

lemma sampleZlibNg_contract : sampleZlibNg.Contract where
  productive := escapeCode.encoder_productive
  stops := escapeCode.decoder_stops
  stream_ne_nil _ _ h := by
    rw [escapeCode.encoder_coded h]
    exact escapeCode.enc_ne_nil _
  decodes content _ h := by
    rw [escapeCode.encoder_coded h]
    exact escapeCode.decoder_decodes content

def sampleMemory : Memory where
  realloc n := n < memoryLimit
  lt_limit _ h := of_decide_eq_true h

def sampleName : EntryName := ⟨str "tool.bin", by decide⟩

/-- A destination with a file and a hash, both of which take everything. -/
def sampleDestination : Destination where
  file := some fun _ data => (true, data.length)
  hash := some fun _ _ => true

lemma sampleDestination_faithful : sampleDestination.Faithful where
  file := fun _ h _ _ => Option.some.inj h ▸ rfl
  hash := fun _ h _ _ => Option.some.inj h ▸ rfl

def sampleFile : File := ⟨str "hi", by decide⟩

/-- Two reads of the entry of the file. -/
def sampleReads : RawReads := ⟨true, [[1, 104, 1], [105, 3, 0]], true, true, by decide⟩

theorem zipContents_roundTrip_sample : ∃ e,
    (zipAddFile sampleZlibNg sampleMemory sampleName 32 sampleFile).run = some (some e) ∧
    e.data = [1, 104, 1, 105, 3, 0] ∧
    ReadsBack sampleZlibNg sampleDestination 2 e sampleReads [104, 105] := by
  obtain ⟨e, he, hreads⟩ := (zipContents_roundTrip sampleZlibNg sampleMemory
    sampleZlibNg_contract).2 sampleName 32 sampleFile
  have hrun : ((zipAddFile sampleZlibNg sampleMemory sampleName 32 sampleFile).run.map
      fun entry => entry.map ZipEntry.data) = some (some [1, 104, 1, 105, 3, 0]) := by decide
  rw [he] at hrun
  have hdata : e.data = [1, 104, 1, 105, 3, 0] := Option.some.inj (Option.some.inj hrun)
  exact ⟨e, he, hdata, (hreads sampleDestination 2 sampleReads sampleDestination_faithful
    (Nat.le_refl 2) ⟨rfl, rfl, rfl, hdata.symm⟩).2 (by decide)⟩

/-! The coder above reads back no file that it compresses to a stream and that is larger than a
buffer. -/

lemma growCapacity_le {required turns capacity : ℕ} :
    growCapacity required turns capacity ≤ max capacity (2 * required) := by
  induction turns generalizing capacity with
  | zero => exact le_max_left _ _
  | succ turns ih =>
    rw [growCapacity]
    split
    · next hlt =>
      split
      · omega
      · exact ih.trans (by omega)
    · exact le_max_left _ _

/-- There is memory for what the test below needs. -/
lemma zlibNgBufferReserve_sample {buffer : ZlibNgBuffer} (hlen : buffer.data.length ≤ 2 ^ 60)
    (hcap : buffer.capacity ≤ 2 ^ 62) : ∃ capacity ≤ 2 ^ 62,
      zlibNgBufferReserve sampleMemory buffer zlibNgBufferBytes = some ⟨buffer.data, capacity⟩ := by
  have hB : zlibNgBufferBytes = 1048576 := rfl
  unfold zlibNgBufferReserve
  rw [if_neg (by unfold sizeMax; omega)]
  split
  · exact ⟨buffer.capacity, hcap, rfl⟩
  · have hstart : (if buffer.capacity = 0 then zlibNgBufferBytes else buffer.capacity) ≤ 2 ^ 62 := by
      split <;> omega
    have hle : growCapacity (buffer.data.length + zlibNgBufferBytes) 64
        (if buffer.capacity = 0 then zlibNgBufferBytes else buffer.capacity) ≤ 2 ^ 62 :=
      growCapacity_le.trans (max_le hstart (by omega))
    refine ⟨_, hle, if_pos (decide_eq_true ?_)⟩
    exact Nat.lt_of_le_of_lt hle (by decide)

/-- The compressor has gathered `bytes` and has given nothing. -/
structure Gathered (bytes : Bytes) (s : Deflating sampleZlibNg) : Prop where
  stream : s.stream = (.gathering bytes : Blocking UInt8 UInt8)
  data : s.compressed.data = []
  capacity : s.compressed.capacity ≤ 2 ^ 62

lemma feed_sample {bytes : Bytes} {s : Deflating sampleZlibNg} (h : Gathered bytes s)
    (piece : Bytes) {n : ℕ} (hn : 1 < n) :
    ∃ s', loop (feedTurn sampleZlibNg sampleMemory) n { s with input := piece } = some (some s') ∧
      Gathered (bytes ++ piece) s' ∧ s'.input = [] := by
  obtain ⟨n, rfl⟩ := Nat.exists_eq_add_of_lt hn
  have hdone : ∀ {s : Deflating sampleZlibNg}, s.input = [] →
      feedTurn sampleZlibNg sampleMemory s = .inl (some s) := fun h => if_pos h
  by_cases hne : piece = []
  · refine ⟨{ s with input := piece }, loop_of_inl (hdone hne) _, ?_, hne⟩
    rw [hne, List.append_nil]
    exact ⟨h.stream, h.data, h.capacity⟩
  · obtain ⟨capacity, hcap, hreserve⟩ := @zlibNgBufferReserve_sample s.compressed
      (by rw [h.data]; exact Nat.zero_le _) h.capacity
    have hcall : deflateCall sampleZlibNg sampleMemory false { s with input := piece } =
        some (.ok, ⟨(.gathering (bytes ++ piece) : Blocking UInt8 UInt8), [], [], capacity⟩) := by
      unfold deflateCall
      rw [hreserve, h.stream, h.data]
      simp [sampleZlibNg, PrefixCode.encoder, PrefixCode.encodeCall, hne]
    have hturn : feedTurn sampleZlibNg sampleMemory { s with input := piece } =
        .inr ⟨(.gathering (bytes ++ piece) : Blocking UInt8 UInt8), [], [], capacity⟩ := by
      unfold feedTurn
      rw [if_neg hne, hcall]
    refine ⟨⟨(.gathering (bytes ++ piece) : Blocking UInt8 UInt8), [], [], capacity⟩, ?_,
      ⟨rfl, rfl, hcap⟩, rfl⟩
    rw [loop_of_inr hturn, Nat.add_comm 1 n]
    exact loop_of_inl (hdone rfl) _

lemma feedPieces_sample {bytes : Bytes} {s : Deflating sampleZlibNg} (h : Gathered bytes s)
    (hinput : s.input = []) (crc : ℕ) (pieces : List Bytes) :
    ∃ r, (feedPieces sampleZlibNg sampleMemory pieces (crc, s)).run = some (some r) ∧
      Gathered (bytes ++ pieces.flatten) r.2 ∧ r.2.input = [] := by
  induction pieces generalizing bytes s crc with
  | nil => exact ⟨(crc, s), rfl, by rwa [List.flatten_nil, List.append_nil], hinput⟩
  | cons piece pieces ih =>
    have hfuel : 1 < piece.length + memoryLimit + 1 := by
      have hlimit : 1 < memoryLimit := by decide
      omega
    obtain ⟨s', hs', hgathered, hinput'⟩ := feed_sample h piece hfuel
    obtain ⟨r, hr, hall⟩ := ih hgathered hinput' (sampleZlibNg.crc32 crc piece)
    refine ⟨r, ?_, by rwa [List.flatten_cons, ← List.append_assoc]⟩
    rw [feedPieces, run_mk_bind hs']
    exact hr

/-- The compressor has `rest` left to give, and there is memory for it. -/
structure Emitting (rest : Bytes) (s : Deflating sampleZlibNg) : Prop where
  size_le : s.compressed.data.length + rest.length ≤ 2 ^ 60
  capacity : s.compressed.capacity ≤ 2 ^ 62
  stream : s.stream = (.emitting rest : Blocking UInt8 UInt8) ∨
    ∃ bytes, s.stream = (.gathering bytes : Blocking UInt8 UInt8) ∧ s.input = [] ∧
      rest = escape bytes

lemma finishTurn_sample {rest : Bytes} {s : Deflating sampleZlibNg} (h : Emitting rest s) :
    ∃ s', finishTurn sampleZlibNg sampleMemory s = .inl (some s') ∨
      finishTurn sampleZlibNg sampleMemory s = .inr s' ∧ (∃ rest', Emitting rest' s') ∧
        2 ^ 60 - s'.compressed.data.length < 2 ^ 60 - s.compressed.data.length := by
  have hsize := h.size_le
  have hB : 0 < zlibNgBufferBytes := by decide
  obtain ⟨capacity, hcap, hreserve⟩ := @zlibNgBufferReserve_sample s.compressed
    (by omega) h.capacity
  have hturn : ∃ input, deflateCall sampleZlibNg sampleMemory true s =
      some (if rest.length ≤ zlibNgBufferBytes then .streamEnd else .ok,
        ⟨(.emitting (rest.drop zlibNgBufferBytes) : Blocking UInt8 UInt8), input,
          s.compressed.data ++ rest.take zlibNgBufferBytes, capacity⟩) := by
    unfold deflateCall
    rcases h.stream with hstream | ⟨bytes, hstream, hinput, rfl⟩
    · refine ⟨s.input, ?_⟩
      rw [hreserve, hstream]
      simp [sampleZlibNg, PrefixCode.encoder, PrefixCode.encodeCall, emit_status hB]
    · refine ⟨[], ?_⟩
      rw [hreserve, hstream, hinput]
      simp [sampleZlibNg, PrefixCode.encoder, PrefixCode.encodeCall, emit_status hB, escapeCode]
  obtain ⟨input, hcall⟩ := hturn
  refine ⟨⟨(.emitting (rest.drop zlibNgBufferBytes) : Blocking UInt8 UInt8), input,
    s.compressed.data ++ rest.take zlibNgBufferBytes, capacity⟩, ?_⟩
  by_cases hle : rest.length ≤ zlibNgBufferBytes
  · rw [if_pos hle] at hcall
    exact .inl (by rw [finishTurn, hcall])
  · rw [if_neg hle] at hcall
    refine .inr ⟨by rw [finishTurn, hcall], ⟨_, ⟨?_, hcap, .inl rfl⟩⟩, ?_⟩
    · simp only [List.length_append, List.length_take, List.length_drop]
      omega
    · simp only [List.length_append, List.length_take]
      omega

lemma finish_sample {rest : Bytes} {s : Deflating sampleZlibNg} (h : Emitting rest s) {n : ℕ}
    (hn : 2 ^ 60 < n) : ∃ s', loop (finishTurn sampleZlibNg sampleMemory) n s = some (some s') := by
  have hspec := @loop_spec _ _ (finishTurn sampleZlibNg sampleMemory)
    (fun s => ∃ rest, Emitting rest s) (fun r => ∃ s', r = some s')
    (fun s => 2 ^ 60 - s.compressed.data.length) ?_ ?_ n s ⟨rest, h⟩ (by omega)
  · obtain ⟨r, hr, s', rfl⟩ := hspec
    exact ⟨s', hr⟩
  · rintro s r ⟨rest, hs⟩ hturn
    obtain ⟨s', hinl | ⟨hinr, -⟩⟩ := finishTurn_sample hs
    · exact ⟨s', Sum.inl.inj (hturn.symm.trans hinl)⟩
    · exact absurd (hturn.symm.trans hinr) (by simp)
  · rintro s s' ⟨rest, hs⟩ hturn
    obtain ⟨s'', hinl | ⟨hinr, hnext⟩⟩ := finishTurn_sample hs
    · exact absurd (hturn.symm.trans hinl) (by simp)
    · obtain rfl := Sum.inr.inj (hturn.symm.trans hinr)
      exact hnext

/-- The coder compresses every file that is not too large. -/
lemma zipAddFile_sample (path : EntryName) (attributes : ℕ) {file : File}
    (hlen : file.content.length ≤ 2 ^ 58) {e : ZipEntry}
    (he : (zipAddFile sampleZlibNg sampleMemory path attributes file).run = some (some e)) :
    e.compressionMethod = methodDeflate := by
  have hstore : zipShouldStore sampleZlibNg file.content = false := by
    unfold zipShouldStore
    split
    · rfl
    · split <;> rfl
  have hcompress : ∃ r, (zlibNgCompressFile sampleZlibNg sampleMemory file.content).run =
      some (some r) := by
    have hstart : Gathered [] (⟨(.gathering [] : Blocking UInt8 UInt8), [], ⟨[], 0⟩⟩ :
        Deflating sampleZlibNg) := ⟨rfl, rfl, Nat.zero_le _⟩
    obtain ⟨r, hr, hgathered, hinput⟩ := feedPieces_sample hstart rfl 0
      (bufferPieces file.content.length file.content)
    rw [List.nil_append, flatten_bufferPieces (Nat.le_refl _)] at hgathered
    have hemitting : Emitting (escape file.content) r.2 := by
      refine ⟨?_, hgathered.capacity, .inr ⟨_, hgathered.stream, hinput, rfl⟩⟩
      rw [hgathered.data, length_escape, List.length_nil]
      omega
    obtain ⟨s', hs'⟩ := finish_sample hemitting (show 2 ^ 60 < memoryLimit + 1 by decide)
    refine ⟨(s'.compressed.data, r.1), ?_⟩
    unfold zlibNgCompressFile
    have hinit : some sampleZlibNg.deflate.init = some (some (.gathering [] :
        Blocking UInt8 UInt8)) := rfl
    rw [run_mk_bind hinit, run_bind_of_some hr, run_mk_bind hs']
    rfl
  obtain ⟨r, hr⟩ := hcompress
  unfold zipAddFile at he
  rw [hstore, if_neg Bool.false_ne_true, hr] at he
  obtain rfl := Option.some.inj ((zipWriterCloseRaw_file _ _ _ _ _ _).symm.trans
    (Option.some.inj he))
  rfl

/-- A file of zeros, one byte larger than a buffer. -/
def zerosFile : File where
  content := List.replicate (zlibNgBufferBytes + 1) 0
  length_lt := by
    rw [List.length_replicate]
    decide

lemma bufferPieces_ne_nil {turns : ℕ} {bytes : Bytes} :
    ∀ piece ∈ bufferPieces turns bytes, piece ≠ [] := by
  induction turns generalizing bytes with
  | zero => exact fun _ h => absurd h List.not_mem_nil
  | succ turns ih =>
    intro piece hpiece
    rw [bufferPieces] at hpiece
    split at hpiece
    · exact absurd hpiece List.not_mem_nil
    · next hne =>
      rcases List.mem_cons.1 hpiece with rfl | hpiece
      · intro hnil
        rcases List.take_eq_nil_iff.1 hnil with hB | hbytes
        · exact absurd hB (by decide)
        · exact hne hbytes
      · exact ih piece hpiece

/-- **The file of zeros is not read back**: the decompressor takes the last of the stored bytes, fills
its room, and has a byte left that the reader does not ask for. -/
theorem zipContents_unread : ¬ ∀ (Z : ZlibNg) (M : Memory), Z.Contract →
    ∀ path attributes (file : File), ∃ e,
      (zipAddFile Z M path attributes file).run = some (some e) ∧
      ∀ (destination : Destination) capacity (raw : RawReads), destination.Faithful →
        file.content.length ≤ capacity → raw.Faithful e →
        ReadsBack Z destination capacity e raw file.content := by
  intro h
  have hlen : zerosFile.content.length = zlibNgBufferBytes + 1 := List.length_replicate
  obtain ⟨e, he, hreads⟩ := h sampleZlibNg sampleMemory sampleZlibNg_contract sampleName 32 zerosFile
  obtain ⟨e', he', hw⟩ :=
    zipAddFile_spec (M := sampleMemory) sampleZlibNg_contract sampleName 32 zerosFile
  obtain rfl := Option.some.inj (Option.some.inj (he.symm.trans he'))
  have hdeflate := zipAddFile_sample sampleName 32 (by rw [hlen]; decide) he
  have hdata : e.data = escapeCode.enc zerosFile.content := by
    rcases hw.data with ⟨hstore, -⟩ | ⟨-, hcoded⟩
    · exact absurd (hdeflate.symm.trans hstore) (by decide)
    · exact escapeCode.encoder_coded hcoded
  have hraw : (⟨true, bufferPieces e.data.length e.data, true, true, bufferPieces_ne_nil⟩ :
      RawReads).Faithful e := ⟨rfl, rfl, rfl, flatten_bufferPieces (Nat.le_refl _)⟩
  obtain ⟨output, hread, -⟩ := hreads sampleDestination _ _ sampleDestination_faithful
    (Nat.le_refl _) hraw
  obtain ⟨ok, output', hread', hcases⟩ := zipReadCurrentEntry_written
    sampleZlibNg_contract hw sampleDestination_faithful (Nat.le_refl _) hraw
  obtain ⟨rfl, -⟩ := Prod.mk.inj (Option.some.inj (hread.symm.trans hread'))
  rcases hcases with ⟨-, -, hstore | ⟨t, ⟨i, input, hreach, hne, rfl, -⟩, hend⟩⟩ | ⟨hfalse, -⟩
  · exact absurd (hdeflate.symm.trans hstore) (by decide)
  · obtain ⟨done, out, hfed, hall⟩ := hreach.fed
    rw [hraw.flatten, hdata, List.flatten_nil, List.append_nil] at hall
    -- the stream ends in a call that has room for all the zeros, and there is no such call
    have hdecoding := (escapeCode.decoder_decodes zerosFile.content).call done out i input
      zlibNgBufferBytes hfed ⟨[], (List.append_nil _).trans hall⟩ hne (by decide)
    obtain ⟨-, rfl⟩ := escapeCode.fed_decoder_of_isPrefix hfed
      ⟨[], (List.append_nil _).trans hall⟩ hne
    have hcontent := congrArg List.length (hdecoding.ended hend).2
    have hroom := escapeCode.decoder.produced_le i input false zlibNgBufferBytes
    rw [List.nil_append, hlen] at hcontent
    omega
  · exact absurd hfalse (by decide)

end Sample

end Wpm.Archive
