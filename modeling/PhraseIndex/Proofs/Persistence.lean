import PhraseIndex.Proofs.Positions

/-!
# Persisted values

A value is decoded from its bytes whatever follows them, and from no shorter part of them (`Persists`). The second half
holds because a reader sees no further than what it takes (`Framed`): what a part is read as, the whole is read as too.
Positions may be listed in any order and more than once; of the pairs of a stream the last one counts
(`Streams.get?_ofList`), so that positions are written again in one way only (`Streams.rewrite_sequence`). All of it
together is `Binary.persistent`.
-/

namespace PhraseIndex

open Binary

/-! ## Readers and what follows -/

section Framed

variable {α β : Type} {x : Reader α} {bs rest written part : Bytes} {a : α}

/-- What a value is read from may be followed by anything. -/
def Framed (read : Reader α) : Prop :=
  ∀ bs a rest more, read bs = some (a, rest) → read (bs ++ more) = some (a, rest ++ more)

namespace Framed

theorem pure (a : α) : Framed (Pure.pure a : Reader α) := by
  intro bs b rest more h
  cases h
  rfl

theorem bind {f : α → Reader β} (hx : Framed x) (hf : ∀ a, Framed (f a)) : Framed (x >>= f) := by
  intro bs b rest more h
  obtain ⟨a, mid, ha, hb⟩ := bind_eq_some_iff.1 h
  exact bind_eq_some_iff.2 ⟨a, mid ++ more, hx _ _ _ more ha, hf a _ _ _ more hb⟩

theorem map (hx : Framed x) (f : α → β) : Framed (f <$> x) := by
  intro bs b rest more h
  obtain ⟨a, ha, hb⟩ := map_eq_some_iff.1 h
  exact map_eq_some_iff.2 ⟨a, hx _ _ _ more ha, hb⟩

theorem readNat (w : Nat) : Framed (Binary.readNat w) := by
  intro bs n rest more h
  obtain ⟨rfl, hlt⟩ := readNat_eq_some h
  rw [List.append_assoc, readNat_le, Nat.mod_eq_of_lt hlt]

theorem readMany (hx : Framed x) (n : Nat) : Framed (Binary.readMany x n) := by
  induction n with
  | zero => exact .pure []
  | succ n ih => exact hx.bind fun a => ih.bind fun as => .pure (a :: as)

theorem readSequence (hx : Framed x) : Framed (Binary.readSequence x) := (Framed.readNat 8).bind hx.readMany

theorem readU16 : Framed Binary.readU16 := (Framed.readNat 2).map _

theorem readU32 : Framed Binary.readU32 := (Framed.readNat 4).map _

theorem readU64 : Framed Binary.readU64 := (Framed.readNat 8).map _

theorem readPair : Framed Streams.readPair :=
  readU16.bind fun _ => (readU64.map _).bind fun _ => .pure _

theorem readManifest : Framed Manifest.readManifest :=
  readU32.bind fun _ => (readSequence (readU32.bind fun _ => readU64.bind fun _ => readU64.bind fun _ => .pure _)).bind
    fun _ => .pure _

theorem readSentencePair : Framed Binary.readSentencePair :=
  readU32.bind fun _ => readU32.readSequence.bind fun _ => readU32.readSequence.bind fun _ =>
    (readU16.bind fun _ => readU16.bind fun _ => .pure _).readSequence.bind fun _ => .pure _

/-- Where a value takes all of its bytes, no value is read from a shorter part of them. -/
theorem none_of_prefix (hx : Framed x) (hread : x written = some (a, [])) (hpart : part <+: written)
    (hne : part ≠ written) : x part = none := by
  obtain ⟨more, rfl⟩ := hpart
  cases hp : x part with
  | none => rfl
  | some r =>
    have hall := hx _ _ _ more hp
    rw [hread] at hall
    have hmore : more = [] := (List.append_eq_nil_iff.1 (Prod.mk.inj (Option.some.inj hall)).2.symm).2
    rw [hmore, List.append_nil] at hne
    exact absurd rfl hne

theorem decode?_of_prefix (hx : Framed x) (hread : ∀ rest, x (written ++ rest) = some (a, rest))
    (hpart : part <+: written) (hne : part ≠ written) : decode? x part = none := by
  have hall := hread []
  rw [List.append_nil] at hall
  rw [decode?, StateT.run, hx.none_of_prefix hall hpart hne]
  rfl

end Framed
end Framed

/-! ## What is persisted -/

/-- A value is decoded from what was written, whatever follows, and what was written cannot be cut short unnoticed. -/
structure Persists {α : Type} (decode : Bytes → Except Error α) (x : α) (written : Bytes) : Prop where
  restored : ∀ rest, decode (written ++ rest) = .ok x
  truncated : ∀ part, part <+: written → part ≠ written → part ≠ [] →
    ∃ e, decode part = .error e ∧ e.kind = .serialization

theorem Manifest.persists {m : Manifest} (h : m.files.length < 2 ^ 64) : Persists decode m m.encode where
  restored := decode_append h
  truncated part hpart hne hempty := by
    refine ⟨.unexpectedEnd, ?_, rfl⟩
    rw [decode, if_neg (by rwa [List.isEmpty_iff]),
      Framed.readManifest.decode?_of_prefix (readManifest_append h) hpart hne]

theorem SentencePair.persists {p : SentencePair} (h : Fits p) : Persists decode p (sentencePair p) where
  restored := decode_append h
  truncated part hpart hne _ := by
    refine ⟨.unexpectedEnd, ?_, rfl⟩
    rw [decode, Framed.readSentencePair.decode?_of_prefix (fun rest => readSentencePair_append rest h) hpart hne]

namespace Streams

variable {bs c rest rest' : Bytes} {pairs pairs' : List (StreamId × SeqNo)} {s t : Streams}

theorem persists (s : Streams) : Persists decode s s.encode where
  restored := s.decode_append
  truncated part hpart hne hempty := by
    have hcount : s.toList.length < 2 ^ 64 := Nat.lt_of_le_of_lt s.length_toList_le (by decide)
    refine ⟨.unexpectedEnd, ?_, rfl⟩
    rw [decode, if_neg (by rwa [List.isEmpty_iff]), Framed.readPair.readSequence.decode?_of_prefix
      (fun rest => readSequence_append rest (fun p r => readPair_append p r) hcount) hpart hne]

/-! ## Positions in any order -/

/-- Of the pairs of a stream the last one counts. -/
theorem get?_ofList (pairs : List (StreamId × SeqNo)) (stream : StreamId) :
    (ofList pairs).get? stream = pairs.reverse.lookup stream := by
  induction pairs using List.reverseRecOn with
  | nil => simp [ofList, get?]
  | append_singleton pairs p ih =>
    have hinsert : (ofList (pairs ++ [p])).get? stream = ((ofList pairs).positions.insert p.1 p.2)[stream]? := by
      rw [get?, ofList, List.foldl_append]
      rfl
    rw [hinsert, Std.ExtTreeMap.getElem?_insert, List.reverse_append, List.reverse_singleton, List.singleton_append,
      List.lookup_cons, ← ih]
    by_cases hp : p.1 = stream
    · rw [if_pos (Std.LawfulEqCmp.compare_eq_iff_eq.2 hp), beq_iff_eq.2 hp.symm]
    · rw [if_neg (mt Std.LawfulEqCmp.eq_of_compare hp), beq_eq_false_iff_ne.2 (Ne.symm hp)]
      rfl

theorem takes_readPair : Takes readPair encodePair := by
  intro bs p rest h
  obtain ⟨stream, mid, hs, h⟩ := bind_eq_some_iff.1 h
  obtain ⟨seq, mid', hq, h⟩ := bind_eq_some_iff.1 h
  cases h
  rw [takes_readU16 _ _ _ hs, takes_readI64 _ _ _ hq, encodePair, List.append_assoc]

/-- Whatever is decoded lists pairs. -/
theorem decode_eq_ok (h : decode bs = .ok s) :
    bs = [] ∧ s = empty ∨ ∃ pairs rest, pairs.length < 2 ^ 64 ∧ bs = sequence encodePair pairs ++ rest ∧
    s = ofList pairs := by
  unfold decode at h
  split at h
  · next hempty =>
    cases h
    exact .inl ⟨List.isEmpty_iff.1 hempty, rfl⟩
  · split at h
    · next pairs hread =>
      cases h
      obtain ⟨⟨pairs, rest⟩, htaken, rfl⟩ := Option.map_eq_some_iff.1 hread
      obtain ⟨hbs, hlen⟩ := readSequence_eq_some takes_readPair htaken
      exact .inr ⟨pairs, rest, hlen, hbs, rfl⟩
    · cases h

/-- Positions are listed by increasing stream. -/
theorem increasing_toList (s : Streams) : s.toList.Pairwise fun p q => p.1 < q.1 :=
  s.positions.ordered_keys_toList.imp Std.compare_eq_lt.1

/-- Reads positions and writes them again. -/
def rewrite (bs : Bytes) : Except Error Bytes := (·.encode) <$> decode bs

theorem rewrite_of_decode (h : decode bs = .ok s) : rewrite bs = .ok s.encode := by
  rw [rewrite, h]
  rfl

/-- Positions that are written again are listed in one way only. -/
theorem rewrite_sequence (h : pairs.length < 2 ^ 64) (h' : pairs'.length < 2 ^ 64) :
    rewrite (sequence encodePair pairs ++ rest) = rewrite (sequence encodePair pairs' ++ rest') ↔
      ∀ stream, pairs.reverse.lookup stream = pairs'.reverse.lookup stream := by
  rw [rewrite_of_decode (decode_sequence h rest), rewrite_of_decode (decode_sequence h' rest'), Except.ok.injEq]
  simp only [← get?_ofList]
  constructor
  · intro he
    have hsame := decode_encode (ofList pairs)
    rw [he, decode_encode, Except.ok.injEq] at hsame
    exact fun stream => by rw [hsame]
  · exact fun hget => by rw [ext_get? hget]

/-- Writing again what was written again changes nothing. -/
theorem rewrite_rewrite (h : rewrite bs = .ok c) : rewrite c = .ok c := by
  obtain ⟨s, -, rfl⟩ := map_eq_ok_iff.1 h
  exact rewrite_of_decode s.decode_encode

end Streams

/-! ## All persisted values -/

namespace Binary

/-- Positions, manifests and sentence pairs (in the payload of a record) come back from their bytes, whatever follows,
and from no part of them; absent positions and an absent manifest are empty. Positions may be listed in any order, also
more than once: of the pairs of a stream the last one counts, and written again they are listed once, by increasing
stream. -/
theorem persistent :
    (∀ s : Streams, Persists Streams.decode s s.encode) ∧
    (∀ m : Manifest, m.files.length < 2 ^ 64 → Persists Manifest.decode m m.encode) ∧
    (∀ p : SentencePair, Fits p → Persists SentencePair.decode p (sentencePair p)) ∧
    (∀ offset left payload rest, payload.length < 2 ^ 32 → payload.length ≤ left - Record.headerSize →
      Record.read offset left (Bytes.le 4 payload.length ++ u32 (Checksum.crc32 payload) ++ payload ++ rest) =
        SentencePair.decode payload) ∧
    (Streams.decode [] = .ok .empty ∧ Manifest.decode [] = .ok .empty) ∧
    (∀ pairs rest, pairs.length < 2 ^ 64 → ∃ s, Streams.decode (sequence Streams.encodePair pairs ++ rest) = .ok s ∧
      ∀ stream, s.get? stream = pairs.reverse.lookup stream) ∧
    (∀ bs s, Streams.decode bs = .ok s →
      bs = [] ∨ ∃ pairs rest, pairs.length < 2 ^ 64 ∧ bs = sequence Streams.encodePair pairs ++ rest) ∧
    (∀ pairs pairs' rest rest', pairs.length < 2 ^ 64 → pairs'.length < 2 ^ 64 →
      (Streams.rewrite (sequence Streams.encodePair pairs ++ rest) =
          Streams.rewrite (sequence Streams.encodePair pairs' ++ rest') ↔
        ∀ stream, pairs.reverse.lookup stream = pairs'.reverse.lookup stream)) ∧
    ∀ bs c, Streams.rewrite bs = .ok c → Streams.rewrite c = .ok c ∧
      ∃ pairs, pairs.Pairwise (fun p q => p.1 < q.1) ∧ c = sequence Streams.encodePair pairs := by
  refine ⟨Streams.persists, fun m => Manifest.persists, fun p => SentencePair.persists, ?payload, ⟨rfl, rfl⟩, ?last,
    ?listed, fun pairs pairs' rest rest' => Streams.rewrite_sequence, ?again⟩
  case payload =>
    intro offset left payload rest hsize hleft
    rw [Record.read_header hsize hleft, if_pos rfl]
  case last => exact fun pairs rest h => ⟨_, Streams.decode_sequence h rest, Streams.get?_ofList pairs⟩
  case listed =>
    intro bs s h
    obtain ⟨hempty, -⟩ | ⟨pairs, rest, hlen, hbs, -⟩ := Streams.decode_eq_ok h
    · exact .inl hempty
    · exact .inr ⟨pairs, rest, hlen, hbs⟩
  case again =>
    intro bs c h
    obtain ⟨s, -, hc⟩ := map_eq_ok_iff.1 h
    exact ⟨Streams.rewrite_rewrite h, s.toList, s.increasing_toList, hc.symm⟩

/-- Stream 7 is listed twice around stream 3 and moves back to -1; the bytes are followed by one more. -/
theorem persistent_repeats :
    let pairs : List (StreamId × SeqNo) := [(7, 1), (3, 5), (7, -1)]
    sequence Streams.encodePair pairs =
      [3, 0, 0, 0, 0, 0, 0, 0, 7, 0, 1, 0, 0, 0, 0, 0, 0, 0, 3, 0, 5, 0, 0, 0, 0, 0, 0, 0,
      7, 0, 255, 255, 255, 255, 255, 255, 255, 255] ∧
    (∃ s, Streams.decode (sequence Streams.encodePair pairs ++ [9]) = .ok s ∧
      s.get? 3 = some 5 ∧ s.get? 7 = some (-1) ∧ s.get? 1 = none) ∧
    Streams.rewrite (sequence Streams.encodePair pairs ++ [9]) =
      Streams.rewrite (sequence Streams.encodePair [(7, -1), (3, 5)] ++ []) ∧
    (∃ e, Streams.decode [0, 0, 0] = .error e ∧ e.kind = .serialization) ∧
    Persists Manifest.decode { files := [⟨0, 0, 48⟩] } (Manifest.encode { files := [⟨0, 0, 48⟩] }) ∧
    Persists SentencePair.decode ⟨7, [1, 2], [3], []⟩ (sentencePair ⟨7, [1, 2], [3], []⟩) ∧
    Record.read 0 11 (Bytes.le 4 3 ++ u32 (Checksum.crc32 [1, 2, 3]) ++ [1, 2, 3] ++ []) =
      SentencePair.decode [1, 2, 3] := by
  obtain ⟨hstreams, hmanifest, hpair, hpayload, -, hlast, -, hsame, -⟩ := persistent
  refine ⟨by decide, ?_, (hsame _ _ _ _ (by decide) (by decide)).2 fun stream => ?_,
    (hstreams .empty).truncated [0, 0, 0] ⟨[0, 0, 0, 0, 0], rfl⟩ (by decide) (by decide), hmanifest _ (by decide),
    hpair _ ⟨by decide, by decide, by decide⟩, hpayload 0 11 [1, 2, 3] [] (by decide) (by decide)⟩
  · obtain ⟨s, hs, hget⟩ := hlast [(7, 1), (3, 5), (7, -1)] [9] (by decide)
    exact ⟨s, hs, hget 3, hget 7, hget 1⟩
  · by_cases h7 : stream = 7
    · rw [h7]
      rfl
    · simp [List.lookup_cons, beq_eq_false_iff_ne.2 h7]

end Binary

end PhraseIndex
