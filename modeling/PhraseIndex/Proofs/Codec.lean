import PhraseIndex.Corpus.Record
import PhraseIndex.Manifest
import PhraseIndex.Proofs.Results
import Mathlib.Algebra.BigOperators.Group.List.Basic

/-!
# Reading what was persisted

Whatever is written is read back from in front of any other bytes: sentence pairs (`Binary.readSentencePair_append`),
manifests (`Manifest.decode_encode`) and whole corpus records (`Record.read_append`). The one condition is that lengths
fit into their fields. The other way round, bytes that are read as a sentence pair or a record begin with its written
form (`Binary.takes_readSentencePair`, `Record.read_eq_ok_iff`), and a record is read where a header, as many bytes as
it says and their checksum agree (`Record.read_eq_ok_iff_begins`).
-/

namespace PhraseIndex

namespace Binary

/-! ## Readers in a row -/

section Readers

variable {α β : Type} {x : Reader α} {bs rest : Bytes} {a : α}

theorem bind_of_some {f : α → Reader β} (h : x bs = some (a, rest)) : (x >>= f) bs = f a rest := by
  show (x bs).bind (fun p => f p.1 p.2) = _
  rw [h]
  rfl

theorem map_of_some (f : α → β) (h : x bs = some (a, rest)) : (f <$> x) bs = some (f a, rest) := by
  show (x bs).bind (fun p => some (f p.1, p.2)) = _
  rw [h]
  rfl

theorem decode?_of_some (h : x bs = some (a, rest)) : decode? x bs = some a := by
  rw [decode?, StateT.run, h]
  rfl

end Readers

variable (rest : Bytes)

theorem readU16_append (n : UInt16) : readU16 (u16 n ++ rest) = some (n, rest) := by
  have h := map_of_some UInt16.ofNat (readNat_le 2 n.toNat rest)
  have hn : n.toNat % Nat.pow 256 2 = n.toNat := Nat.mod_eq_of_lt n.toNat_lt
  rwa [hn, UInt16.ofNat_toNat] at h

theorem readU32_append (n : UInt32) : readU32 (u32 n ++ rest) = some (n, rest) := by
  have h := map_of_some UInt32.ofNat (readNat_le 4 n.toNat rest)
  have hn : n.toNat % Nat.pow 256 4 = n.toNat := Nat.mod_eq_of_lt n.toNat_lt
  rwa [hn, UInt32.ofNat_toNat] at h

theorem readU64_append (n : UInt64) : readU64 (u64 n ++ rest) = some (n, rest) := by
  have h := map_of_some UInt64.ofNat (readNat_le 8 n.toNat rest)
  have hn : n.toNat % Nat.pow 256 8 = n.toNat := Nat.mod_eq_of_lt n.toNat_lt
  rwa [hn, UInt64.ofNat_toNat] at h

theorem readSequence_append {α : Type} {write : α → Bytes} {read : Reader α}
    (h : ∀ x rest, read (write x ++ rest) = some (x, rest)) {xs : List α} (hl : xs.length < 2 ^ 64) :
    readSequence read (sequence write xs ++ rest) = some (xs, rest) := by
  have hn : xs.length % Nat.pow 256 8 = xs.length := Nat.mod_eq_of_lt hl
  rw [readSequence, sequence, List.append_assoc, bind_of_some (readNat_le 8 xs.length _), hn]
  exact readMany_flatMap h xs rest

theorem readAlignmentPoint_append (p : AlignmentPoint) :
    readAlignmentPoint (alignmentPoint p ++ rest) = some (p, rest) := by
  rw [readAlignmentPoint, alignmentPoint, List.append_assoc, bind_of_some (readU16_append _ _),
    bind_of_some (readU16_append _ _)]
  rfl

/-! ## Sentence pairs -/

theorem length_flatMap_of_length {α : Type} {write : α → Bytes} {n : Nat} (h : ∀ x, (write x).length = n)
    (xs : List α) :
    (xs.flatMap write).length = xs.length * n := by
  rw [List.length_flatMap]
  simp [h]

/-- The bytes of a sentence pair are at least as many as its words and links. -/
theorem length_sentencePair (p : SentencePair) :
    (sentencePair p).length = 28 + 4 * (p.source.length + p.target.length + p.alignment.length) := by
  have hword : ∀ w : Word, (u32 w).length = 4 := fun w => Bytes.length_le 4 _
  have hlink : ∀ l : AlignmentPoint, (alignmentPoint l).length = 4 := fun l => by simp [alignmentPoint, u16]
  simp only [sentencePair, sequence, List.length_append, Bytes.length_le, hword, length_flatMap_of_length hword,
    length_flatMap_of_length hlink]
  omega

/-- The numbers of words and links fit into the fields for them. -/
structure Fits (p : SentencePair) : Prop where
  source : p.source.length < 2 ^ 64
  target : p.target.length < 2 ^ 64
  alignment : p.alignment.length < 2 ^ 64

theorem fits_of_length {p : SentencePair} (h : (sentencePair p).length < 2 ^ 64) : Fits p := by
  rw [length_sentencePair] at h
  constructor <;> omega

theorem readSentencePair_append {p : SentencePair} (h : Fits p) :
    readSentencePair (sentencePair p ++ rest) = some (p, rest) := by
  simp only [readSentencePair, sentencePair, List.append_assoc]
  rw [bind_of_some (readU32_append _ _), bind_of_some (readSequence_append _ (fun w r => readU32_append r w) h.source),
    bind_of_some (readSequence_append _ (fun w r => readU32_append r w) h.target),
    bind_of_some (readSequence_append _ (fun l r => readAlignmentPoint_append r l) h.alignment)]
  rfl

/-! ## What was read -/

section Inversion

variable {α β : Type} {x : Reader α} {bs rest : Bytes} {a : α} {b : β}

theorem bind_eq_some_iff {f : α → Reader β} :
    (x >>= f) bs = some (b, rest) ↔ ∃ a mid, x bs = some (a, mid) ∧ f a mid = some (b, rest) := by
  show (x bs).bind (fun p => f p.1 p.2) = _ ↔ _
  rw [Option.bind_eq_some_iff]
  exact Prod.exists

theorem map_eq_some_iff {f : α → β} : (f <$> x) bs = some (b, rest) ↔ ∃ a, x bs = some (a, rest) ∧ f a = b := by
  show (x bs).bind (fun p => some (f p.1, p.2)) = _ ↔ _
  rw [Option.bind_eq_some_iff]
  simp only [Option.some.injEq, Prod.mk.injEq, Prod.exists]
  constructor
  · rintro ⟨a, mid, hx, hf, rfl⟩
    exact ⟨a, hx, hf⟩
  · rintro ⟨a, hx, hf⟩
    exact ⟨a, rest, hx, hf, rfl⟩

/-- What the reader takes off the front is the written form of what it answers. -/
def Takes (read : Reader α) (write : α → Bytes) : Prop := ∀ bs a rest, read bs = some (a, rest) → bs = write a ++ rest

theorem readNat_eq_some {w n : Nat} (h : readNat w bs = some (n, rest)) :
    bs = Bytes.le w n ++ rest ∧ n < Nat.pow 256 w := by
  unfold readNat at h
  split at h
  · next hlen =>
    cases h
    have hle := Bytes.le_ofLE (bs.take w)
    have hlt := Bytes.ofLE_lt (bs.take w)
    rw [hlen] at hle hlt
    exact ⟨by rw [hle, List.take_append_drop], hlt⟩
  · cases h

theorem takes_readU16 : Takes readU16 u16 := by
  intro bs a rest h
  obtain ⟨n, hn, rfl⟩ := map_eq_some_iff.1 h
  obtain ⟨hbs, hlt⟩ := readNat_eq_some hn
  rw [u16, UInt16.toNat_ofNat_of_lt' hlt, hbs]

theorem takes_readU32 : Takes readU32 u32 := by
  intro bs a rest h
  obtain ⟨n, hn, rfl⟩ := map_eq_some_iff.1 h
  obtain ⟨hbs, hlt⟩ := readNat_eq_some hn
  rw [u32, UInt32.toNat_ofNat_of_lt' hlt, hbs]

theorem takes_readU64 : Takes readU64 u64 := by
  intro bs a rest h
  obtain ⟨n, hn, rfl⟩ := map_eq_some_iff.1 h
  obtain ⟨hbs, hlt⟩ := readNat_eq_some hn
  rw [u64, UInt64.toNat_ofNat_of_lt' hlt, hbs]

theorem takes_readI64 : Takes readI64 i64 := by
  intro bs a rest h
  obtain ⟨n, hn, rfl⟩ := map_eq_some_iff.1 h
  rw [i64, UInt64.toUInt64_toInt64, ← takes_readU64 _ _ _ hn]

theorem readMany_eq_some {read : Reader α} {write : α → Bytes} (hr : Takes read write) {n : Nat} {xs : List α}
    (h : readMany read n bs = some (xs, rest)) : xs.length = n ∧ bs = xs.flatMap write ++ rest := by
  induction n generalizing bs xs with
  | zero =>
    cases h
    exact ⟨rfl, rfl⟩
  | succ n ih =>
    obtain ⟨x, mid, hx, h⟩ := bind_eq_some_iff.1 h
    obtain ⟨ys, mid', hys, h⟩ := bind_eq_some_iff.1 h
    cases h
    obtain ⟨hlen, hmid⟩ := ih hys
    refine ⟨by rw [List.length_cons, hlen], ?_⟩
    rw [hr _ _ _ hx, hmid, List.flatMap_cons, List.append_assoc]

/-- A sequence that is read is no longer than its length can tell. -/
theorem readSequence_eq_some {read : Reader α} {write : α → Bytes} (hr : Takes read write) {xs : List α}
    (h : readSequence read bs = some (xs, rest)) : bs = sequence write xs ++ rest ∧ xs.length < 2 ^ 64 := by
  obtain ⟨n, mid, hn, h⟩ := bind_eq_some_iff.1 h
  obtain ⟨rfl, hmid⟩ := readMany_eq_some hr h
  obtain ⟨hbs, hlt⟩ := readNat_eq_some hn
  exact ⟨by rw [hbs, hmid, sequence, List.append_assoc], hlt⟩

theorem takes_readSequence {read : Reader α} {write : α → Bytes} (hr : Takes read write) :
    Takes (readSequence read) (sequence write) := fun _ _ _ h => (readSequence_eq_some hr h).1

theorem takes_readAlignmentPoint : Takes readAlignmentPoint alignmentPoint := by
  intro bs p rest h
  obtain ⟨source, mid, hs, h⟩ := bind_eq_some_iff.1 h
  obtain ⟨target, mid', ht, h⟩ := bind_eq_some_iff.1 h
  cases h
  rw [takes_readU16 _ _ _ hs, takes_readU16 _ _ _ ht, alignmentPoint, List.append_assoc]

theorem takes_readSentencePair : Takes readSentencePair sentencePair := by
  intro bs p rest h
  obtain ⟨domain, mid, hd, h⟩ := bind_eq_some_iff.1 h
  obtain ⟨source, mid₁, hs, h⟩ := bind_eq_some_iff.1 h
  obtain ⟨target, mid₂, ht, h⟩ := bind_eq_some_iff.1 h
  obtain ⟨alignment, mid₃, ha, h⟩ := bind_eq_some_iff.1 h
  cases h
  rw [takes_readU32 _ _ _ hd, takes_readSequence takes_readU32 _ _ _ hs, takes_readSequence takes_readU32 _ _ _ ht,
    takes_readSequence takes_readAlignmentPoint _ _ _ ha]
  simp only [sentencePair, List.append_assoc]

end Inversion
end Binary

/-! ## Manifests -/

namespace Manifest

theorem readFile_append (f : ManifestFile) (rest : Bytes) : readFile (encodeFile f ++ rest) = some (f, rest) := by
  rw [readFile, encodeFile, List.append_assoc, List.append_assoc, Binary.bind_of_some (Binary.readU32_append _ _),
    Binary.bind_of_some (Binary.readU64_append _ _), Binary.bind_of_some (Binary.readU64_append _ _)]
  rfl

theorem encode_ne_nil (m : Manifest) : m.encode ≠ [] := List.cons_ne_nil _ _

theorem readManifest_append {m : Manifest} (h : m.files.length < 2 ^ 64) (rest : Bytes) :
    readManifest (m.encode ++ rest) = some (m, rest) := by
  rw [readManifest, encode, List.append_assoc, Binary.bind_of_some (Binary.readU32_append _ _),
    Binary.bind_of_some (Binary.readSequence_append _ (fun f r => readFile_append f r) h)]
  rfl

/-- A manifest is read back as it was written, from in front of any other bytes. -/
theorem decode_append {m : Manifest} (h : m.files.length < 2 ^ 64) (rest : Bytes) :
    decode (m.encode ++ rest) = .ok m := by
  have hne : m.encode ++ rest ≠ [] := List.append_ne_nil_of_left_ne_nil m.encode_ne_nil rest
  rw [decode, if_neg (by rwa [List.isEmpty_iff]), Binary.decode?_of_some (readManifest_append h rest)]

theorem decode_encode {m : Manifest} (h : m.files.length < 2 ^ 64) : decode m.encode = .ok m := by
  rw [← List.append_nil m.encode, decode_append h]

end Manifest

/-! ## Records -/

/-- The sentence pair in a payload. -/
def SentencePair.decode (payload : Bytes) : Except Error SentencePair :=
  match Binary.decode? Binary.readSentencePair payload with
  | some pair => .ok pair
  | none => .error .unexpectedEnd

/-- A sentence pair is read back as it was written, from in front of any other bytes. -/
theorem SentencePair.decode_append {p : SentencePair} (h : Binary.Fits p) (rest : Bytes) :
    decode (Binary.sentencePair p ++ rest) = .ok p := by
  rw [decode, Binary.decode?_of_some (Binary.readSentencePair_append rest h)]

/-- What is decoded stands at the front of the payload. -/
theorem SentencePair.prefix_of_decode {payload : Bytes} {p : SentencePair} (h : decode payload = .ok p) :
    Binary.sentencePair p <+: payload := by
  unfold decode at h
  split at h
  · next q hq =>
    cases h
    obtain ⟨⟨q, more⟩, htaken, rfl⟩ := Option.map_eq_some_iff.1 hq
    exact ⟨more, (Binary.takes_readSentencePair _ _ _ htaken).symm⟩
  · cases h

namespace Record

theorem length_encode (pair : SentencePair) :
    (encode pair).length = headerSize + (Binary.sentencePair pair).length := by
  simp [encode, headerSize, Binary.u32]
  omega

theorem length_encode_pos (pair : SentencePair) : 0 < (encode pair).length := by
  rw [length_encode, headerSize]
  omega

theorem take_append {bs : Bytes} {n : Nat} (h : bs.length = n) (rest : Bytes) :
    take n (bs ++ rest) = .ok (bs, rest) := by
  rw [take, List.take_left' h, List.drop_left' h, if_pos h]

/-- The number that was written. -/
theorem ofNat_ofLE_u32 (n : UInt32) : UInt32.ofNat (Bytes.ofLE (Binary.u32 n)) = n := by
  have hlt : n.toNat < Nat.pow 256 4 := n.toNat_lt
  rw [Binary.u32, Bytes.ofLE_le, Nat.mod_eq_of_lt hlt, UInt32.ofNat_toNat]

/-- Behind a header with the length of the payload, the checksum decides whether the payload is decoded. -/
theorem read_header {payload : Bytes} {left : Nat} (hsize : payload.length < 2 ^ 32)
    (hleft : payload.length ≤ left - headerSize) (offset : Offset) (sum : UInt32) (rest : Bytes) :
    read offset left (Bytes.le 4 payload.length ++ Binary.u32 sum ++ payload ++ rest) =
      if Checksum.crc32 payload = sum then SentencePair.decode payload else .error (.recordChecksum offset) := by
  let header := Bytes.le 4 payload.length ++ Binary.u32 sum
  have hheader : header.length = headerSize := by simp [header, headerSize, Binary.u32]
  have hlen : Bytes.ofLE (header.take 4) = payload.length := by
    rw [List.take_left' (Bytes.length_le 4 _), Bytes.ofLE_le]
    exact Nat.mod_eq_of_lt hsize
  have hsum : UInt32.ofNat (Bytes.ofLE (header.drop 4)) = sum := by
    rw [List.drop_left' (Bytes.length_le 4 _), ofNat_ofLE_u32]
  have hroom : decide (payload.length ≤ left - headerSize) = true := decide_eq_true hleft
  unfold read
  rw [List.append_assoc, take_append hheader]
  simp only [bind, Except.bind, hlen, take_append (rfl : payload.length = payload.length) rest, hsum, hroom, require,
    ↓reduceIte]
  by_cases hmatch : Checksum.crc32 payload = sum
  · rw [if_pos hmatch, if_pos (beq_iff_eq.2 hmatch)]
    rfl
  · rw [if_neg hmatch, if_neg (mt beq_iff_eq.1 hmatch)]

/-- A record is read back from in front of other records. -/
theorem read_append {pair : SentencePair} {left : Nat} (hsize : (Binary.sentencePair pair).length < 2 ^ 32)
    (hleft : (encode pair).length ≤ left) (offset : Offset) (rest : Bytes) :
    read offset left (encode pair ++ rest) = .ok pair := by
  have hroom : (Binary.sentencePair pair).length ≤ left - headerSize := by
    rw [length_encode] at hleft
    exact Nat.le_sub_of_add_le' hleft
  have hpair := SentencePair.decode_append (Binary.fits_of_length (Nat.lt_of_lt_of_le hsize (by decide))) []
  rw [List.append_nil] at hpair
  rw [encode, read_header hsize hroom, if_pos rfl, hpair]

/-! ### What was read -/

variable {bs : Bytes} {offset : Offset} {pair : SentencePair} {left n : Nat}

theorem take_eq_ok_iff {r : Bytes × Bytes} : take n bs = .ok r ↔ bs = r.1 ++ r.2 ∧ r.1.length = n := by
  obtain ⟨front, rest⟩ := r
  constructor
  · intro h
    unfold take at h
    split at h
    · next hlen =>
      cases h
      exact ⟨(List.take_append_drop n bs).symm, hlen⟩
    · cases h
  · rintro ⟨rfl, hlen⟩
    exact take_append hlen rest

/-- The bytes of a number that was read. -/
theorem le_ofLE_of_length {w : Nat} (h : bs.length = w) : Bytes.le w (Bytes.ofLE bs) = bs := by
  rw [← h, Bytes.le_ofLE]

/-- Any four bytes are those of a number. -/
theorem u32_ofNat_ofLE (h : bs.length = 4) : Binary.u32 (UInt32.ofNat (Bytes.ofLE bs)) = bs := by
  have hlt := Bytes.ofLE_lt bs
  rw [h] at hlt
  rw [Binary.u32, UInt32.toNat_ofNat_of_lt' hlt, le_ofLE_of_length h]

/-- A record is read from a header that agrees with its payload, and from the payload. -/
theorem read_eq_ok (h : read offset left bs = .ok pair) : ∃ payload rest, payload.length < 2 ^ 32 ∧
    bs = Bytes.le 4 payload.length ++ Binary.u32 (Checksum.crc32 payload) ++ payload ++ rest ∧
      payload.length ≤ left - headerSize ∧ SentencePair.decode payload = .ok pair := by
  obtain ⟨⟨header, body⟩, hheader, hread⟩ := bind_eq_ok_iff.1 h
  obtain ⟨_, hroom, hread⟩ := bind_eq_ok_iff.1 hread
  obtain ⟨⟨payload, rest⟩, hpayload, hread⟩ := bind_eq_ok_iff.1 hread
  obtain ⟨_, hsum, hdecode⟩ := bind_eq_ok_iff.1 hread
  obtain ⟨rfl, hlen⟩ := take_eq_ok_iff.1 hheader
  obtain ⟨rfl, hlen'⟩ := take_eq_ok_iff.1 hpayload
  dsimp only at hlen hlen'
  have hfour : (header.take 4).length = 4 := by rw [List.length_take, hlen]; rfl
  have hdrop : (header.drop 4).length = 4 := by rw [List.length_drop, hlen]; rfl
  have hlength : Bytes.le 4 payload.length = header.take 4 := by rw [hlen', le_ofLE_of_length hfour]
  have hcheck : Binary.u32 (Checksum.crc32 payload) = header.drop 4 := by
    rw [beq_iff_eq.1 (require_eq_ok_iff.1 hsum), u32_ofNat_ofLE hdrop]
  have hsize := Bytes.ofLE_lt (header.take 4)
  rw [← hlen', hfour] at hsize
  refine ⟨payload, rest, hsize, ?_, ?_, hdecode⟩
  · rw [hlength, hcheck, List.take_append_drop, List.append_assoc]
  · rw [hlen']
    exact of_decide_eq_true (require_eq_ok_iff.1 hroom)

/-- The bytes begin with a header, as many bytes as it says and `left` has room for, and these have the checksum that it
says and are those of the sentence pair. -/
def Begins (left : Nat) (bs : Bytes) (pair : SentencePair) : Prop :=
  ∃ (length sum : UInt32) (payload rest : Bytes), bs = Binary.u32 length ++ Binary.u32 sum ++ payload ++ rest ∧
    payload.length = length.toNat ∧ headerSize + length.toNat ≤ left ∧ Checksum.crc32 payload = sum ∧
    SentencePair.decode payload = .ok pair

/-- A payload has at least the fields of an empty sentence pair. -/
theorem length_of_decode {payload : Bytes} (h : SentencePair.decode payload = .ok pair) : 28 ≤ payload.length := by
  have hle := (SentencePair.prefix_of_decode h).length_le
  rw [Binary.length_sentencePair] at hle
  omega

theorem read_eq_ok_iff_begins : read offset left bs = .ok pair ↔ Begins left bs pair := by
  constructor
  · intro h
    obtain ⟨payload, rest, hsize, hbs, hleft, hdecode⟩ := read_eq_ok h
    have hlength : (UInt32.ofNat payload.length).toNat = payload.length := UInt32.toNat_ofNat_of_lt' hsize
    have hlong := length_of_decode hdecode
    exact ⟨.ofNat payload.length, _, payload, rest, by rw [Binary.u32, hlength, hbs], hlength.symm, by omega, rfl,
      hdecode⟩
  · rintro ⟨length, sum, payload, rest, rfl, hlength, hleft, hsum, hdecode⟩
    rw [Binary.u32, ← hlength, read_header (hlength ▸ length.toNat_lt) (by omega), if_pos hsum, hdecode]

/-- More bytes behind a record, and more room for it, make no difference. -/
theorem Begins.mono {bs' : Bytes} {left' : Nat} (hleft : left ≤ left') (hbs : bs <+: bs') (h : Begins left bs pair) :
    Begins left' bs' pair := by
  obtain ⟨length, sum, payload, rest, rfl, hlength, hroom, hsum, hdecode⟩ := h
  obtain ⟨more, rfl⟩ := hbs
  exact ⟨length, sum, payload, rest ++ more, by rw [List.append_assoc], hlength, Nat.le_trans hroom hleft, hsum,
    hdecode⟩

/-- Where there is room for the record of a sentence pair and no more, it is read from exactly that record. -/
theorem read_eq_ok_iff (hsize : (Binary.sentencePair pair).length < 2 ^ 32) :
    read offset (encode pair).length bs = .ok pair ↔ encode pair <+: bs := by
  constructor
  · intro h
    obtain ⟨payload, rest, -, hbs, hroom, hdecode⟩ := read_eq_ok h
    have hpair := SentencePair.prefix_of_decode hdecode
    rw [length_encode, Nat.add_sub_cancel_left] at hroom
    rw [hbs, ← hpair.eq_of_length_le hroom]
    exact List.prefix_append _ _
  · rintro ⟨rest, rfl⟩
    exact read_append hsize (Nat.le_refl _) offset rest

end Record

end PhraseIndex
