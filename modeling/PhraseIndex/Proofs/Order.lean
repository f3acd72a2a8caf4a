import PhraseIndex.Proofs.Clearing

/-!
# The order of the keys

Keys are compared byte by byte, and a key is written so that this compares records: by kind, then by the length of the
phrase, its words and the domain (`Key.order`). Numbers of one width compare like their bytes (`Bytes.compare_be`), so
on well-formed keys the two orders are the same (`Key.compare_encode`), and what starts with `Key.scan phrase` is the
run of the phrase's source keys (`Key.scans_in_order`). All records of an index are listed with increasing keys
(`Store.sorted_toList`), and those of a phrase with increasing domains (`Key.source_lt_source_iff`).
-/

namespace PhraseIndex

namespace Bytes

variable {xs ys : Bytes}

theorem compare_eq_lt_iff : compare xs ys = .lt ↔ xs < ys := by
  induction xs generalizing ys with
  | nil => cases ys <;> simp
  | cons x xs ih =>
    cases ys with
    | nil => simp
    | cons y ys =>
      rw [List.compare_cons_cons, Ordering.then_eq_lt, Std.compare_eq_lt, Std.LawfulEqCmp.compare_eq_iff_eq, ih,
        List.cons_lt_cons_iff]

/-- Strings of one length are compared before what follows them. -/
theorem compare_append (h : xs.length = ys.length) (r s : Bytes) :
    compare (xs ++ r) (ys ++ s) = (compare xs ys).then (compare r s) := by
  induction xs generalizing ys with
  | nil =>
    obtain rfl : ys = [] := List.length_eq_zero_iff.1 h.symm
    rfl
  | cons x xs ih =>
    cases ys with
    | nil => cases h
    | cons y ys =>
      rw [List.cons_append, List.cons_append, List.compare_cons_cons, List.compare_cons_cons, ih (Nat.succ.inj h),
        Ordering.then_assoc]

theorem be_succ (w n : Nat) : be (w + 1) n = be w (n / 256) ++ [UInt8.ofNat n] := by
  rw [be, le, List.reverse_cons, be]

/-- The last byte decides only between numbers that agree in the others. -/
theorem compare_div_mod (m n : Nat) :
    (compare (m / 256) (n / 256)).then (compare (m % 256) (n % 256)) = compare m n := by
  rcases Nat.lt_trichotomy m n with h | rfl | h
  · rw [Nat.compare_eq_lt.2 h, Ordering.then_eq_lt, Nat.compare_eq_lt, Nat.compare_eq_lt, Nat.compare_eq_eq]
    omega
  · rw [Std.compare_self, Std.compare_self, Std.compare_self]
    rfl
  · rw [Nat.compare_eq_gt.2 h, Ordering.then_eq_gt, Nat.compare_eq_gt, Nat.compare_eq_gt, Nat.compare_eq_eq]
    omega

/-- Numbers compare like their bytes. -/
theorem compare_be {w m n : Nat} (hm : m < Nat.pow 256 w) (hn : n < Nat.pow 256 w) :
    compare (be w m) (be w n) = compare m n := by
  induction w generalizing m n with
  | zero =>
    rw [Nat.pow_eq, Nat.pow_zero, Nat.lt_one_iff] at hm hn
    rw [hm, hn]
    rfl
  | succ w ih =>
    have hm' : m / 256 < Nat.pow 256 w := Nat.div_lt_of_lt_mul (by rwa [Nat.pow_eq, ← Nat.pow_succ'])
    have hn' : n / 256 < Nat.pow 256 w := Nat.div_lt_of_lt_mul (by rwa [Nat.pow_eq, ← Nat.pow_succ'])
    rw [be_succ, be_succ, compare_append (by simp), ih hm' hn', List.compare_cons_cons, List.compare_nil_nil,
      Ordering.then_eq, UInt8.compare_eq_toNat_compare_toNat, UInt8.toNat_ofNat', UInt8.toNat_ofNat']
    exact compare_div_mod m n

end Bytes

namespace Key

variable {limit : PrefixLength} {phrase p q : Phrase} {d e : Domain} {k l : Key}

theorem compare_wordBytes (v w : Word) : compare (wordBytes v) (wordBytes w) = compare v w := by
  rw [wordBytes, wordBytes, Bytes.compare_be v.toNat_lt w.toNat_lt, UInt32.compare_eq_toNat_compare_toNat]

/-- The source keys of a phrase are ordered like their domains. -/
theorem source_lt_source_iff : (source phrase d).encode < (source phrase e).encode ↔ d < e := by
  rw [← Bytes.compare_eq_lt_iff, encode, encode, Bytes.compare_append rfl, compare_wordBytes, Std.compare_self,
    Ordering.eq_then, Std.compare_eq_lt]

/-! ## The order of the records -/

/-- Within a kind, records of phrases are ordered by the number of words, then by the words from the first one on, and
source records of one phrase by domain; markers are ordered by domain. -/
def orderWithin : Key → Key → Ordering
  | source p d, source q e => (compare p.length q.length).then ((compare p q).then (compare d e))
  | target p, target q => (compare p.length q.length).then (compare p q)
  | deletion d, deletion e => compare d e
  | _, _ => .eq

/-- Records are ordered by the tag of their kind first. -/
def order (k l : Key) : Ordering := (compare k.kind.tag l.kind.tag).then (k.orderWithin l)

theorem compare_words (p q : Phrase) : compare (p.flatMap wordBytes) (q.flatMap wordBytes) = compare p q := by
  induction p generalizing q with
  | nil =>
    cases q with
    | nil => rfl
    | cons w q => simp [wordBytes, Bytes.be, Bytes.le]
  | cons v p ih =>
    cases q with
    | nil => simp [wordBytes, Bytes.be, Bytes.le]
    | cons w q =>
      rw [List.flatMap_cons, List.flatMap_cons, Bytes.compare_append (by simp), compare_wordBytes, ih,
        List.compare_cons_cons]

/-- The number of words decides first, then the words, then what follows them. -/
theorem compare_phraseBytes (hp : p.length ≤ limit.toNat) (hq : q.length ≤ limit.toNat) (r s : Bytes) :
    compare (phraseBytes p ++ r) (phraseBytes q ++ s) =
      (compare p.length q.length).then ((compare p q).then (compare r s)) := by
  rw [phraseBytes, phraseBytes, List.cons_append, List.cons_append, List.compare_cons_cons,
    UInt8.compare_eq_toNat_compare_toNat, toNat_lengthByte hp, toNat_lengthByte hq]
  by_cases hlen : p.length = q.length
  · rw [Bytes.compare_append (by rw [length_flatMap_wordBytes, length_flatMap_wordBytes, hlen]), compare_words]
  · rcases Nat.lt_or_gt_of_ne hlen with hlt | hgt
    · rw [Nat.compare_eq_lt.2 hlt]
      rfl
    · rw [Nat.compare_eq_gt.2 hgt]
      rfl

/-- What a key says behind its tag. -/
def body : Key → Bytes
  | streams | manifest => []
  | source phrase domain => phraseBytes phrase ++ wordBytes domain
  | target phrase => phraseBytes phrase
  | deletion domain => wordBytes domain

theorem encode_eq_cons (k : Key) : k.encode = k.kind.tag :: k.body := by
  cases k <;> rfl

theorem tag_eq_tag_iff {r s : RecordKind} : r.tag = s.tag ↔ r = s := by
  cases r <;> cases s <;> decide

theorem compare_body (hk : k.WellFormed limit) (hl : l.WellFormed limit) (hkind : k.kind = l.kind) :
    compare k.body l.body = k.orderWithin l := by
  cases k with
  | streams => cases l with
    | streams => rfl
    | _ => cases hkind
  | manifest => cases l with
    | manifest => rfl
    | _ => cases hkind
  | source p d => cases l with
    | source q e => rw [body, body, compare_phraseBytes hk.2 hl.2, compare_wordBytes, orderWithin]
    | _ => cases hkind
  | target p => cases l with
    | target q =>
      have h := compare_phraseBytes hk.2 hl.2 [] []
      rwa [List.append_nil, List.append_nil, List.compare_nil_nil, Ordering.then_eq] at h
    | _ => cases hkind
  | deletion d => cases l with
    | deletion e => exact compare_wordBytes d e
    | _ => cases hkind

/-- Well-formed keys stand in the order of their records. -/
theorem compare_encode (hk : k.WellFormed limit) (hl : l.WellFormed limit) :
    compare k.encode l.encode = k.order l := by
  rw [encode_eq_cons, encode_eq_cons, List.compare_cons_cons, order]
  cases htag : compare k.kind.tag l.kind.tag with
  | lt => rfl
  | eq => exact compare_body hk hl (tag_eq_tag_iff.1 (Std.LawfulEqCmp.eq_of_compare htag))
  | gt => rfl

/-- In an index the bytes of a scan begin the source keys of its phrase, in whatever domain, and no other key; and the
bytes of two keys compare as their records do. -/
theorem scans_in_order (limit : PrefixLength) :
    (∀ (phrase : Phrase) (k : Key), 1 ≤ phrase.length → phrase.length ≤ limit.toNat → k.WellFormed limit →
      (scan phrase <+: k.encode ↔ ∃ domain, k = source phrase domain)) ∧
    ∀ k l : Key, k.WellFormed limit → l.WellFormed limit →
      compare k.encode l.encode = k.order l ∧ (k.encode < l.encode ↔ k.order l = .lt) := by
  refine ⟨fun phrase k _ hp hk => scan_prefix_encode_iff hp hk, fun k l hk hl => ?_⟩
  have horder := compare_encode hk hl
  exact ⟨horder, by rw [← Bytes.compare_eq_lt_iff, horder]⟩

/-- The greatest word in the shorter phrase stands before the least words in a longer one, which does not lie in its
scan. -/
theorem scans_in_order_extremes :
    scan [4294967295] <+: (source [4294967295] 7).encode ∧ ¬scan [4294967295] <+: (source [4294967295, 0] 7).encode ∧
      (source [4294967295] 4294967295).encode < (source [0, 0] 0).encode ∧
      (source [256, 1] 0).encode < (source [256, 2] 0).encode := by
  obtain ⟨hscan, horder⟩ := scans_in_order 2
  have hone : ∀ w d, (source [w] d).WellFormed 2 := fun w d => ⟨Nat.le_refl 1, Nat.le_succ 1⟩
  have htwo : ∀ v w d, (source [v, w] d).WellFormed 2 := fun v w d => ⟨Nat.le_succ 1, Nat.le_refl 2⟩
  refine ⟨(hscan _ _ (by decide) (by decide) (hone _ _)).2 ⟨7, rfl⟩, fun h => ?_,
    (horder _ _ (hone _ _) (htwo _ _ _)).2.2 (by decide), (horder _ _ (htwo _ _ _) (htwo _ _ _)).2.2 (by decide)⟩
  obtain ⟨domain, hd⟩ := (hscan _ _ (by decide) (by decide) (htwo _ _ _)).1 h
  simp at hd

end Key

namespace Store

/-- All records are listed with increasing keys. -/
theorem sorted_toList (s : Store) : s.toList.Pairwise fun x y => x.1 < y.1 :=
  s.index.ordered_keys_toList.imp fun h => Bytes.compare_eq_lt_iff.1 h

end Store

end PhraseIndex
