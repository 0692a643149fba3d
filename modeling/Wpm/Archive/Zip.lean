import Wpm.Lib.Check
import Wpm.Archive.Path

/-!
Zip entries and their contents.

An archive is the list of its entries in the order of the central directory. `ZipLib` is what the
program uses of zlib-ng and minizip-ng beyond enumeration: whole-stream inflation, the checksum,
and the two classifications of an entry. `readCurrentEntry` is the program's own reader, which
reads the stored bytes raw and checks sizes and checksum itself; it is the only way in which the
program looks at the contents of an entry.
-/

namespace Wpm.Archive

open Wpm.Lib.CString Wpm.Lib.Check

/-- `mz_zip_file`, with the stored bytes of the entry. The name is a C string and the sizes are
64-bit integers. -/
structure ZipEntry where
  filename : Bytes
  uncompressedSize : ℤ
  compressedSize : ℤ
  flag : ℕ
  compressionMethod : ℕ
  crc : ℕ
  versionMadeby : ℕ
  externalFa : ℕ
  data : Bytes
  zero_notMem_filename : (0 : UInt8) ∉ filename
  uncompressedSize_lt : uncompressedSize < 0x8000000000000000

/-- zlib-ng and minizip-ng. `inflate` is the result of a raw deflate stream, when the stream is
correct and ends with its input; `isDir` and `isSymlink` look at the name and the attributes of
an entry. -/
structure ZipLib where
  inflate : Bytes → Option Bytes
  crc32 : Bytes → ℕ
  isDir : ZipEntry → Bool
  isSymlink : ZipEntry → Bool

/-- `MZ_COMPRESS_METHOD_STORE` and `MZ_COMPRESS_METHOD_DEFLATE`. -/
def methodStore : ℕ := 0

def methodDeflate : ℕ := 8

variable (Z : ZipLib)

/-- `mz_zip_reader_locate_entry` with `ignore_case = 0`: the first entry of that name, up to the
direction of slashes. -/
def locateEntry (archive : List ZipEntry) (name : Bytes) : Option ZipEntry :=
  archive.find? fun e => normalizeArchiveSeparators e.filename = normalizeArchiveSeparators name

lemma locateEntry_eq_some {archive : List ZipEntry} {name : Bytes} {e : ZipEntry}
    (h : locateEntry archive name = some e) :
    e ∈ archive ∧ normalizeArchiveSeparators e.filename = normalizeArchiveSeparators name :=
  ⟨List.mem_of_find?_eq_some h, by simpa using List.find?_some h⟩

lemma locateEntry_isSome {archive : List ZipEntry} {name : Bytes} (h : ∃ e ∈ archive,
    normalizeArchiveSeparators e.filename = normalizeArchiveSeparators name) :
    ∃ e, locateEntry archive name = some e := by
  rw [← Option.isSome_iff_exists, locateEntry, List.find?_isSome]
  simpa using h

/-- The bytes that the stored bytes of an entry stand for. -/
def decompress (e : ZipEntry) : Option Bytes :=
  if e.compressionMethod = methodStore then some e.data else Z.inflate e.data

/-- `wpm_zip_read_current_entry` into an output of `capacity` bytes: the contents of the entry. -/
def readCurrentEntry (e : ZipEntry) (capacity : ℕ) : Option Bytes := do
  guard (0 ≤ e.compressedSize ∧ 0 ≤ e.uncompressedSize)
  guard (e.flag.testBit 0 = false)
  guard (e.compressionMethod = methodStore ∨ e.compressionMethod = methodDeflate)
  guard (e.uncompressedSize ≤ capacity)
  let output ← decompress Z e
  guard (output.length ≤ capacity)
  guard (e.data.length = e.compressedSize)
  guard (output.length = e.uncompressedSize)
  guard (Z.crc32 output = e.crc)
  some output

/-- The contents do not depend on the room there is for them. -/
lemma readCurrentEntry_capacity {e : ZipEntry} {c c' : ℕ} {content : Bytes}
    (h : readCurrentEntry Z e c = some content) (hc : e.uncompressedSize ≤ c') :
    readCurrentEntry Z e c' = some content := by
  simp only [readCurrentEntry, option_bind_eq_some, Option.guard_eq_some', exists_const,
    Option.some.injEq] at h ⊢
  obtain ⟨h1, h2, h3, -, output, h5, -, h7, h8, h9, rfl⟩ := h
  exact ⟨h1, h2, h3, hc, output, h5, by omega, h7, h8, h9, rfl⟩

/-- The contents of an entry, read with room for its declared size. -/
def content (e : ZipEntry) : Option Bytes := readCurrentEntry Z e e.uncompressedSize.toNat

lemma content_of_readCurrentEntry {e : ZipEntry} {c : ℕ} {bytes : Bytes}
    (h : readCurrentEntry Z e c = some bytes) : content Z e = some bytes :=
  readCurrentEntry_capacity Z h (Int.self_le_toNat _)

/-- `read_zip_text`: `some none` is the answer for an archive without the entry. -/
def readZipText (archive : List ZipEntry) (name : Bytes) (maximum : ℕ) : Option (Option Bytes) :=
  match locateEntry archive name with
  | none => some none
  | some e => do
    guard (0 ≤ e.uncompressedSize ∧ e.uncompressedSize ≤ maximum)
    let text ← readCurrentEntry Z e e.uncompressedSize.toNat
    guard ((0 : UInt8) ∉ text)
    some (some text)

end Wpm.Archive
