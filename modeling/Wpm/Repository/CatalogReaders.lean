import Wpm.Repository.Catalog

/-!
The publisher's reader of a catalog, and the client's.

`author_read_catalog` refuses what it does not understand, and `parse_index` reads over it. On what
the publisher's reader accepts both of them move in step: over the members of a package, and over
the packages.
-/

namespace Wpm.Repository

open Wpm.Lib.CString Wpm.JsonInput
open Wpm.Archive (pathSize)

/-! ### The publisher's reader -/

/-- The loop of `author_read_catalog` over the packages, up to the end of the array. -/
def authorEntriesFrom : ℕ → List PackageEntry → Bytes → Option (List PackageEntry)
  | 0, _, _ => none
  | fuel + 1, entries, p =>
    let p := jsonSpace p
    if cur p = ch ']' then some entries
    else if entries.length = maxPackages then none
    else match authorEntry p with
      | none => none
      | some (e, p) =>
        if entries.any fun old => fold old.name = fold e.name && fold old.arch = fold e.arch &&
            old.version = e.version then none
        else
          let p := jsonSpace p
          if cur p = ch ',' then authorEntriesFrom fuel (entries ++ [e]) p.tail
          else if cur p = ch ']' then authorEntriesFrom fuel (entries ++ [e]) p
          else none

/-- `author_read_catalog`, of a folder whose `index.json` is a file with the text given. -/
def authorReadCatalog (text : Bytes) : Option (List PackageEntry) :=
  if queryCatalogDocument text then
    (packagesArray text).bind fun p => authorEntriesFrom p.length [] p
  else none

/-! ### What is put into a buffer -/

lemma hexValue_lt {c : UInt8} {d : ℕ} (h : hexValue c = some d) : d < 16 := by
  have hall : ∀ n : Fin 256, ∀ d ∈ hexValue (UInt8.ofFin n), d < 16 := by decide +kernel
  exact hall c.toFin d h

lemma jsonHexFrom_lt : ∀ {k r n : ℕ} {p q : Bytes}, jsonHexFrom k r p = some (n, q) →
    n < (r + 1) * 16 ^ k
  | 0, r, n, p, q, h => by
    obtain ⟨rfl, -⟩ := Prod.mk.inj (Option.some.inj h)
    simp
  | k + 1, r, n, p, q, h => by
    obtain ⟨d, hd, h⟩ := Option.bind_eq_some_iff.1 h
    have hlt := hexValue_lt hd
    have hn := jsonHexFrom_lt h
    have hle : r * 16 + d + 1 ≤ (r + 1) * 16 := by omega
    calc n < (r * 16 + d + 1) * 16 ^ k := hn
      _ ≤ (r + 1) * 16 * 16 ^ k := Nat.mul_le_mul_right _ hle
      _ = (r + 1) * 16 ^ (k + 1) := by rw [pow_succ, mul_assoc, mul_comm 16]

lemma ofNat_ne_zero {n : ℕ} (h0 : 0 < n) (h : n < 256) : UInt8.ofNat n ≠ 0 := by
  intro he
  have hnat := congrArg UInt8.toNat he
  rw [UInt8.toNat_ofNat'] at hnat
  simp only [UInt8.toNat_zero] at hnat
  omega

/-- No byte of a character is zero. -/
lemma zero_notMem_encodeCodepoint {n : ℕ} (h0 : n ≠ 0) (h : n < 0x110000) :
    (0 : UInt8) ∉ encodeCodepoint n := by
  have htail : ∀ m : ℕ, UInt8.ofNat (0x80 + m % 64) ≠ 0 := fun m =>
    ofNat_ne_zero (by omega) (by omega)
  unfold encodeCodepoint
  intro hmem
  split_ifs at hmem
  · obtain h := List.mem_singleton.1 hmem
    exact ofNat_ne_zero (by omega) (by omega) h.symm
  · simp only [List.mem_cons, List.not_mem_nil, or_false] at hmem
    rcases hmem with h | h
    · exact ofNat_ne_zero (by omega) (by omega) h.symm
    · exact htail _ h.symm
  · simp only [List.mem_cons, List.not_mem_nil, or_false] at hmem
    rcases hmem with h | h | h
    · exact ofNat_ne_zero (by omega) (by omega) h.symm
    · exact htail _ h.symm
    · exact htail _ h.symm
  · simp only [List.mem_cons, List.not_mem_nil, or_false] at hmem
    rcases hmem with h | h | h | h
    · exact ofNat_ne_zero (by omega) (by omega) h.symm
    · exact htail _ h.symm
    · exact htail _ h.symm
    · exact htail _ h.symm

lemma zero_notMem_readUnicode {p out rest : Bytes} (h : readUnicode true p = some (out, rest)) :
    (0 : UInt8) ∉ out := by
  obtain ⟨⟨n, p'⟩, hhex, h⟩ := Option.bind_eq_some_iff.1 h
  have hn := jsonHexFrom_lt hhex
  rw [ite_eq_iff] at h
  obtain ⟨-, h⟩ | ⟨hzero, h⟩ := h
  · exact absurd h (by simp)
  rw [ite_eq_iff] at h
  obtain ⟨hhigh, h⟩ | ⟨hhigh, h⟩ := h
  · rw [ite_eq_iff] at h
    obtain ⟨-, h⟩ | ⟨-, h⟩ := h
    · exact absurd h (by simp)
    obtain ⟨⟨low, q⟩, -, h⟩ := Option.bind_eq_some_iff.1 h
    rw [ite_eq_iff] at h
    obtain ⟨-, h⟩ | ⟨hlow, h⟩ := h
    · exact absurd h (by simp)
    · obtain ⟨rfl, -⟩ := Prod.mk.inj (Option.some.inj h)
      exact zero_notMem_encodeCodepoint (by omega) (by omega)
  · rw [ite_eq_iff] at h
    obtain ⟨-, h⟩ | ⟨-, h⟩ := h
    · exact absurd h (by simp)
    · obtain ⟨rfl, -⟩ := Prod.mk.inj (Option.some.inj h)
      exact zero_notMem_encodeCodepoint (fun h0 => hzero ⟨h0, rfl⟩) (by omega)

lemma zero_notMem_readUnit {c : UInt8} {p out rest : Bytes} (h0 : c ≠ 0)
    (h : readUnit true c p = some (out, rest)) : (0 : UInt8) ∉ out := by
  have hescape : ∀ n : Fin 256, simpleEscape (UInt8.ofFin n) ≠ some 0 := by decide +kernel
  unfold readUnit at h
  rw [ite_eq_iff] at h
  obtain ⟨-, h⟩ | ⟨-, h⟩ := h
  · exact absurd h (by simp)
  rw [ite_eq_iff] at h
  obtain ⟨-, h⟩ | ⟨-, h⟩ := h
  · rw [ite_eq_iff] at h
    obtain ⟨-, h⟩ | ⟨-, h⟩ := h
    · exact zero_notMem_readUnicode h
    · obtain ⟨b, hb, hpair⟩ := Option.map_eq_some_iff.1 h
      obtain ⟨rfl, -⟩ := Prod.mk.inj hpair
      exact fun hmem => hescape (cur p).toFin (hb.trans (congrArg some (List.mem_singleton.1 hmem).symm))
  · obtain ⟨rfl, -⟩ := Prod.mk.inj (Option.some.inj h)
    exact fun hmem => h0 (List.mem_singleton.1 hmem).symm

/-- A string that is read is put into the buffer with a terminator, and has no other one. -/
lemma writtenUnits_of_readUnits {size : ℕ} : ∀ {fuel n : ℕ} {p out rest : Bytes},
    readUnits true size fuel n p = some (out, rest) →
      writtenUnits size fuel n p = out ++ [0] ∧ (0 : UInt8) ∉ out
  | 0, n, p, out, rest, h => absurd h (by simp [readUnits])
  | fuel + 1, n, p, out, rest, h => by
    rw [readUnits, ite_eq_iff] at h
    obtain ⟨-, h⟩ | ⟨h0, h⟩ := h
    · exact absurd h (by simp)
    rw [ite_eq_iff] at h
    obtain ⟨hq, h⟩ | ⟨hq, h⟩ := h
    · obtain ⟨rfl, -⟩ := Prod.mk.inj (Option.some.inj h)
      rw [writtenUnits, if_neg h0, if_pos hq]
      exact ⟨rfl, List.not_mem_nil⟩
    · obtain ⟨⟨bytes, p'⟩, hunit, h⟩ := Option.bind_eq_some_iff.1 h
      rw [ite_eq_iff] at h
      obtain ⟨-, h⟩ | ⟨hfit, h⟩ := h
      · exact absurd h (by simp)
      obtain ⟨⟨more, q⟩, hmore, h⟩ := Option.bind_eq_some_iff.1 h
      obtain ⟨rfl, rfl⟩ := Prod.mk.inj (Option.some.inj h)
      obtain ⟨hwritten, hzero⟩ := writtenUnits_of_readUnits hmore
      rw [writtenUnits, if_neg h0, if_neg hq, hunit]
      simp only [if_neg hfit]
      rw [hwritten, List.append_assoc]
      refine ⟨rfl, fun hmem => ?_⟩
      rcases List.mem_append.1 hmem with hmem | hmem
      · exact zero_notMem_readUnit h0 hunit hmem
      · exact hzero hmem

/-- **A member that is read** is the string in its buffer. -/
lemma overwriteString_of_some {size : ℕ} {p value rest : Bytes} (buffer : Bytes)
    (h : readString true size p = some (value, rest)) :
    cstr (overwriteString size buffer p).1 = value ∧ (overwriteString size buffer p).2 = rest := by
  obtain ⟨hquote, hunits⟩ : cur (jsonSpace p) = ch '"' ∧
      readUnits true size (jsonSpace p).length 0 (jsonSpace p).tail = some (value, rest) := by
    rw [readString, ite_eq_iff] at h
    obtain ⟨-, h⟩ | ⟨hq, h⟩ := h
    · exact absurd h (by simp)
    · exact ⟨not_not.1 hq, h⟩
  obtain ⟨hwritten, hzero⟩ := writtenUnits_of_readUnits hunits
  constructor
  · simp only [overwriteString, hquote, ne_eq, not_true_eq_false, if_false, hwritten]
    rw [List.append_assoc, List.singleton_append]
    have hcut : cstr (value ++ [0]) = value := by
      rw [cstr, List.takeWhile_append_of_pos]
      · simp
      · exact fun c hc => decide_eq_true fun he => hzero (he ▸ hc)
    rw [← List.singleton_append, ← List.append_assoc, cstr_append_of_mem (by simp), hcut]
  · simp only [overwriteString, h, Option.map_some, Option.getD_some]

/-! ### The members of a package -/

/-- The buffers hold the fields that have been read, and nothing for the others. -/
structure Matches (m : Members) (f : AuthorFields) : Prop where
  name : cstr m.name = f.name.getD []
  version : cstr m.version = f.version.getD []
  arch : cstr m.arch = f.arch.getD []
  url : cstr m.url = f.url.getD []
  ne_nil : ∀ field ∈ [f.name, f.version, f.arch, f.url], ∀ value ∈ field, value ≠ []

lemma matches_start : Matches .start ⟨none, none, none, none⟩ := by
  have hzeros : ∀ n : ℕ, cstr (List.replicate n 0) = [] := by
    rintro (_ | n)
    · rfl
    · rw [List.replicate_succ, cstr, List.takeWhile_cons_of_neg (by simp)]
  exact ⟨hzeros _, hzeros _, hzeros _, hzeros _, by simp⟩

lemma readOnce_eq_some {size : ℕ} {old : Option Bytes} {p value q : Bytes}
    (h : readOnce size old p = some (value, q)) :
    readString true size p = some (value, q) ∧ value ≠ [] := by
  unfold readOnce at h
  cases old with
  | some v => exact absurd h (by simp)
  | none =>
    cases hread : readString true size p with
    | none => exact absurd (hread ▸ h) (by simp)
    | some r =>
      obtain ⟨v, q'⟩ := r
      rw [hread] at h
      obtain ⟨hne, h⟩ := Option.ite_none_left_eq_some.1 h
      obtain ⟨rfl, rfl⟩ := Prod.mk.inj (Option.some.inj h)
      exact ⟨rfl, hne⟩

/-- **A member**: what the publisher's reader accepts is read by the client's, up to the same
place. -/
lemma Matches.read {m : Members} {f f' : AuthorFields} {key p q : Bytes} (hm : Matches m f)
    (h : f.read key p = some (f', q)) : Matches (m.read key p).1 f' ∧ (m.read key p).2 = q := by
  obtain ⟨hname, hversion, harch, hurl, hne⟩ := hm
  simp only [List.mem_cons, List.not_mem_nil, or_false, forall_eq_or_imp, forall_eq] at hne
  obtain ⟨hne1, hne2, hne3, hne4⟩ := hne
  have hvalue : ∀ {v : Bytes}, v ≠ [] → ∀ value ∈ some v, value ≠ [] := fun hv value hvalue =>
    Option.some.inj hvalue ▸ hv
  unfold AuthorFields.read at h
  unfold Members.read
  rw [ite_eq_iff] at h
  obtain ⟨hkey, h⟩ | ⟨hkey, h⟩ := h
  · obtain ⟨⟨v, p'⟩, hread, hpair⟩ := Option.map_eq_some_iff.1 h
    obtain ⟨rfl, rfl⟩ := Prod.mk.inj hpair
    obtain ⟨hstring, hv⟩ := readOnce_eq_some hread
    obtain ⟨h1, h2⟩ := overwriteString_of_some m.name hstring
    rw [if_pos hkey]
    exact ⟨⟨h1, hversion, harch, hurl, by simpa using ⟨hv, hne2, hne3, hne4⟩⟩, h2⟩
  rw [if_neg hkey]
  rw [ite_eq_iff] at h
  obtain ⟨hkey, h⟩ | ⟨hkey, h⟩ := h
  · obtain ⟨⟨v, p'⟩, hread, hpair⟩ := Option.map_eq_some_iff.1 h
    obtain ⟨rfl, rfl⟩ := Prod.mk.inj hpair
    obtain ⟨hstring, hv⟩ := readOnce_eq_some hread
    obtain ⟨h1, h2⟩ := overwriteString_of_some m.version hstring
    rw [if_pos hkey]
    exact ⟨⟨hname, h1, harch, hurl, by simpa using ⟨hne1, hv, hne3, hne4⟩⟩, h2⟩
  rw [if_neg hkey]
  rw [ite_eq_iff] at h
  obtain ⟨hkey, h⟩ | ⟨hkey, h⟩ := h
  · obtain ⟨⟨v, p'⟩, hread, hpair⟩ := Option.map_eq_some_iff.1 h
    obtain ⟨rfl, rfl⟩ := Prod.mk.inj hpair
    obtain ⟨hstring, hv⟩ := readOnce_eq_some hread
    obtain ⟨h1, h2⟩ := overwriteString_of_some m.arch hstring
    rw [if_pos hkey]
    exact ⟨⟨hname, hversion, h1, hurl, by simpa using ⟨hne1, hne2, hv, hne4⟩⟩, h2⟩
  rw [if_neg hkey]
  rw [ite_eq_iff] at h
  obtain ⟨hkey, h⟩ | ⟨hkey, h⟩ := h
  · obtain ⟨⟨v, p'⟩, hread, hpair⟩ := Option.map_eq_some_iff.1 h
    obtain ⟨rfl, rfl⟩ := Prod.mk.inj hpair
    obtain ⟨hstring, hv⟩ := readOnce_eq_some hread
    obtain ⟨h1, h2⟩ := overwriteString_of_some m.url hstring
    rw [if_pos hkey]
    exact ⟨⟨hname, hversion, harch, h1, by simpa using ⟨hne1, hne2, hne3, hv⟩⟩, h2⟩
  rw [if_neg hkey]
  obtain ⟨-, h⟩ := Option.ite_none_right_eq_some.1 h
  obtain ⟨rfl, rfl⟩ := Prod.mk.inj (Option.some.inj h)
  exact ⟨⟨hname, hversion, harch, hurl, by simpa using ⟨hne1, hne2, hne3, hne4⟩⟩, rfl⟩

/-- No white space is skipped where none stands. -/
lemma jsonSpace_of_cur {p : Bytes} (h : Wpm.Lib.Json.isWhitespace (cur p) = false) :
    jsonSpace p = p := by
  refine jsonSpace_eq_self ?_
  cases p with
  | nil => exact fun c hc => absurd hc (by simp)
  | cons c p => exact Wpm.Lib.Json.lead_cons p h

/-- A key starts with a quote. -/
lemma cur_of_readKey {size : ℕ} {p : Bytes} {r : Bytes × Bytes} (hp : Wpm.Lib.Json.Lead p)
    (h : readKey size p = some r) : cur p = ch '"' := by
  by_contra hne
  have hnone : ∀ output size, readString output size p = none := by
    intro output size
    rw [readString, jsonSpace_eq_self hp, if_pos hne]
  rw [readKey, hnone, hnone] at h
  exact absurd h (by simp)

/-- The pointer over the closing brace, if it is there. -/
def skipBrace (p : Bytes) : Bytes := if cur p = ch '}' then p.tail else p

/-- **The loop over the members**: both readers go on with the text after the same brace. -/
lemma readMembers_of_author : ∀ {fuel fuel' : ℕ} {f f' : AuthorFields} {m : Members} {p q : Bytes},
    authorMembers fuel f p = some (f', q) → Matches m f → fuel ≤ fuel' →
      Matches (readMembers fuel' m p).1 f' ∧ skipBrace (readMembers fuel' m p).2 = q
  | 0, _, _, _, _, _, _, h, _, _ => absurd h (by simp [authorMembers])
  | fuel + 1, 0, _, _, _, _, _, _, _, hfuel => absurd hfuel (by omega)
  | fuel + 1, fuel' + 1, f, f', m, p, q, h, hm, hfuel => by
    have hlead : Wpm.Lib.Json.Lead (jsonSpace p) := lead_jsonSpace p
    rw [authorMembers, ite_eq_iff] at h
    obtain ⟨hclose, h⟩ | ⟨hclose, h⟩ := h
    · obtain ⟨rfl, rfl⟩ := Prod.mk.inj (Option.some.inj h)
      by_cases hstop : cur p = 0 ∨ cur p = ch '}'
      · rw [readMembers, if_pos hstop]
        have hp : jsonSpace p = p :=
          jsonSpace_of_cur (by rcases hstop with h | h <;> rw [h] <;> decide)
        rw [hp] at hclose ⊢
        exact ⟨hm, if_pos hclose⟩
      · have hkey : readKey 32 (jsonSpace p) = none := by
          cases hk : readKey 32 (jsonSpace p) with
          | none => rfl
          | some r =>
            have hquote := cur_of_readKey hlead hk
            rw [hclose] at hquote
            exact absurd hquote (by decide)
        rw [readMembers, if_neg hstop, hkey]
        exact ⟨hm, if_pos hclose⟩
    · obtain ⟨⟨key, p1⟩, hkey, h⟩ := Option.bind_eq_some_iff.1 h
      rw [ite_eq_iff] at h
      obtain ⟨-, h⟩ | ⟨hcolon, h⟩ := h
      · exact absurd h (by simp)
      obtain ⟨⟨f1, p2⟩, hread, h⟩ := Option.bind_eq_some_iff.1 h
      obtain ⟨hm1, hp2⟩ := hm.read hread
      have hquote := cur_of_readKey hlead hkey
      have hstop : ¬(cur p = 0 ∨ cur p = ch '}') := by
        intro hstop
        rw [jsonSpace_of_cur (by rcases hstop with h | h <;> rw [h] <;> decide)] at hquote
        rw [hquote] at hstop
        exact absurd hstop (by decide)
      rw [readMembers, if_neg hstop, hkey]
      simp only [if_neg hcolon, hp2]
      rw [ite_eq_iff] at h
      obtain ⟨hcomma, h⟩ | ⟨hcomma, h⟩ := h
      · rw [skipComma, if_pos hcomma]
        exact readMembers_of_author h hm1 (by omega)
      · obtain ⟨-, h⟩ := Option.ite_none_right_eq_some.1 h
        rw [skipComma, if_neg hcomma]
        exact readMembers_of_author h hm1 (by omega)

/-! ### The packages -/

/-- The entry as the client keeps it, with the repository that it is from. -/
def ofRepository (r : RepositoryEntry) (e : PackageEntry) : PackageEntry :=
  { e with priority := r.priority, order := r.order }

/-- **A package**: the client's reader makes the same entry, and goes on at the same place. -/
lemma readMembers_of_authorEntry {p q : Bytes} {e : PackageEntry} (h : authorEntry p = some (e, q))
    (r : RepositoryEntry) : cur (jsonSpace p) = ch '{' ∧
      Members.entry r (readMembers (jsonSpace p).length .start (jsonSpace p).tail).1 =
        some (ofRepository r e) ∧
      skipBrace (readMembers (jsonSpace p).length .start (jsonSpace p).tail).2 = q := by
  unfold authorEntry at h
  obtain ⟨hopen, h⟩ := Option.ite_none_left_eq_some.1 h
  refine ⟨not_not.1 hopen, ?_⟩
  cases hmembers : authorMembers (jsonSpace p).length ⟨none, none, none, none⟩ (jsonSpace p).tail with
  | none =>
    rw [hmembers] at h
    exact absurd h (by simp)
  | some r' =>
    obtain ⟨f, q'⟩ := r'
    obtain ⟨hm, hq⟩ := readMembers_of_author hmembers matches_start le_rfl
    rw [hmembers] at h
    obtain ⟨_ | name, _ | version, _ | arch, _ | url⟩ := f
    case some.some.some.some =>
      obtain ⟨-, h⟩ := Option.ite_none_right_eq_some.1 h
      obtain ⟨rfl, rfl⟩ := Prod.mk.inj (Option.some.inj h)
      refine ⟨?_, hq⟩
      have hne := hm.ne_nil
      simp only [List.mem_cons, List.not_mem_nil, or_false, forall_eq_or_imp, forall_eq,
        Option.mem_def, Option.some.injEq, forall_eq'] at hne
      rw [Members.entry, hm.name, hm.version, hm.arch, hm.url]
      exact if_pos hne
    all_goals exact absurd h (by simp)

/-- **The loop over the packages.** -/
lemma readPackages_of_author (r : RepositoryEntry) : ∀ {fuel fuel' : ℕ} {before entries : List PackageEntry}
    {p : Bytes}, authorEntriesFrom fuel before p = some entries → fuel ≤ fuel' →
      before.length ≤ maxPackages → entries.length ≤ maxPackages ∧ ∃ new, entries = before ++ new ∧
        (readPackages fuel' p).filterMap (Members.entry r) = new.map (ofRepository r)
  | 0, _, _, _, _, h, _, _ => absurd h (by simp [authorEntriesFrom])
  | fuel + 1, 0, _, _, _, _, hfuel, _ => absurd hfuel (by omega)
  | fuel + 1, fuel' + 1, before, entries, p, h, hfuel, hlen => by
    rw [authorEntriesFrom, ite_eq_iff] at h
    obtain ⟨hclose, h⟩ | ⟨hclose, h⟩ := h
    · obtain rfl := Option.some.inj h
      refine ⟨hlen, [], (List.append_nil _).symm, ?_⟩
      rw [readPackages]
      simp only [hclose, or_true, if_true, List.filterMap_nil, List.map_nil]
    · obtain ⟨hroom, h⟩ := Option.ite_none_left_eq_some.1 h
      cases hentry : authorEntry (jsonSpace p) with
      | none =>
        rw [hentry] at h
        exact absurd h (by simp)
      | some r' =>
        obtain ⟨e, q⟩ := r'
        rw [hentry] at h
        obtain ⟨-, h⟩ := Option.ite_none_left_eq_some.1 h
        obtain ⟨hopen, hmake, hq⟩ := readMembers_of_authorEntry hentry r
        rw [jsonSpace_eq_self (lead_jsonSpace p)] at hopen hmake hq
        have hstop : ¬(cur (jsonSpace p) = 0 ∨ cur (jsonSpace p) = ch ']') := by
          rw [hopen]
          decide
        have hnext : ∃ p', authorEntriesFrom fuel (before ++ [e]) p' = some entries ∧
            skipComma (jsonSpace q) = p' := by
          rw [ite_eq_iff] at h
          obtain ⟨hcomma, h⟩ | ⟨hcomma, h⟩ := h
          · exact ⟨_, h, if_pos hcomma⟩
          · obtain ⟨-, h⟩ := Option.ite_none_right_eq_some.1 h
            exact ⟨_, h, if_neg hcomma⟩
        obtain ⟨p', h, hp'⟩ := hnext
        have hlen' : (before ++ [e]).length ≤ maxPackages := by
          rw [List.length_append, List.length_singleton]
          omega
        obtain ⟨hle, new, rfl, hnew⟩ := @readPackages_of_author r fuel fuel' _ _ _ h (by omega) hlen'
        refine ⟨hle, e :: new, by simp, ?_⟩
        rw [readPackages]
        simp only [if_neg hstop]
        rw [if_neg (not_not.2 hopen), List.filterMap_cons_some hmake, List.map_cons]
        rw [skipBrace] at hq
        rw [hq, hp', hnew]

/-- **The two readers agree**: from an empty table, the client loads from a catalog that the
publisher's reader accepts exactly the entries that this one has read, in the same order. -/
theorem parseIndex_of_author {fullPath : Bytes → Option Bytes} {text : Bytes}
    {entries : List PackageEntry} (h : authorReadCatalog text = some entries) (r : RepositoryEntry)
    (repositories : List RepositoryEntry) :
    (parseIndex fullPath r text [] repositories).map Prod.fst =
      some (entries.map (ofRepository r)) := by
  obtain ⟨hdocument, h⟩ := Option.ite_none_right_eq_some.1 h
  obtain ⟨p, hp, h⟩ := Option.bind_eq_some_iff.1 h
  obtain ⟨hlen, new, hnew, hread⟩ := readPackages_of_author r h le_rfl (Nat.zero_le _)
  rw [List.nil_append] at hnew
  subst hnew
  have hsupported : indexFileSupported text = true := by
    rw [queryCatalogDocument, Bool.and_eq_true] at hdocument
    rw [indexFileSupported, hdocument.1, hp]
    rfl
  have hlisted : indexEntries r text = entries.map (ofRepository r) := by
    rw [indexEntries, hp]
    exact hread
  rw [parseIndex, if_pos hsupported, Option.map_some, addEntries, hlisted, List.nil_append,
    List.length_nil, Nat.sub_zero, List.take_of_length_le (by rwa [List.length_map])]

/-- A catalog with one entry, among other members, and with an escape. -/
def sampleCatalog : Bytes :=
  str "\x7b\"version\": 1, \"packages\": [\x7b\"x\": [1, \x7b\x7d], \"name\": \"a\\u0062\", " ++
    str "\"arch\": \"any\", \"version\": \"1.0.0\", \"url\": \"a.zip\"\x7d]\x7d"

def sampleCatalogEntry : PackageEntry := ⟨str "ab", str "1.0.0", str "any", str "a.zip", 0, 0⟩

/-- A catalog with two entries, whose members stand in different orders. -/
def severalCatalog : Bytes :=
  str "\x7b\"packages\": [\x7b\"x\": [1, \x7b\x7d], \"name\": \"a\\u0062\", " ++
    str "\"arch\": \"any\", \"version\": \"1.0.0\", \"url\": \"a.zip\"\x7d, \x7b\"url\": " ++
    str "\"c.zip\", \"version\": \"2.0.0-rc.1\", \"name\": \"c\", \"arch\": \"x64\"\x7d], " ++
    str "\"version\": 1\x7d"

theorem parseIndex_of_author_sample :
    (parseIndex some ⟨str "C:\\r", 5, 2, false⟩ severalCatalog [] []).map Prod.fst =
      some ([sampleCatalogEntry, ⟨str "c", str "2.0.0-rc.1", str "x64", str "c.zip", 0, 0⟩].map
        (ofRepository ⟨str "C:\\r", 5, 2, false⟩)) :=
  parseIndex_of_author (by decide +kernel) _ []

end Wpm.Repository
