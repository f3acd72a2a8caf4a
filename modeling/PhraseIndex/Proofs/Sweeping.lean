import PhraseIndex.Proofs.Contents

/-!
# What a sweep does

A sweep removes the source records of the pending domains and their markers and nothing else. Each of its commits
removes only records of these domains (`Sweeper.mem_plan`, `Sweeper.finalRemoval_eq_ok_iff`). On an index whose source
keys can be read it always comes to its end and leaves nothing pending (`Sweeper.sweep_of_readable`), and it takes the
sentences of the deleted domains out of what the index reflects (`Store.Reflects.purge`).
-/

namespace PhraseIndex

theorem Store.mem_keysOf {s : Store} {kind : RecordKind} {key : Bytes} :
    key ∈ s.keysOf kind ↔ Key.kindOf? key = some kind ∧ (s.get? key).isSome := by
  simp only [Store.keysOf, List.mem_map, Prod.exists, exists_and_right, exists_eq_right, Store.mem_scan,
    Key.kindOf?_eq_some_iff, Option.isSome_iff_exists, exists_and_left]

/-- Keys of a kind whose records are the same in two indexes are the same. -/
theorem Store.keysOf_congr {s s' : Store} {kind : RecordKind}
    (h : ∀ key, Key.kindOf? key = some kind → s'.get? key = s.get? key) : s'.keysOf kind = s.keysOf kind := by
  have hscan : ∀ s : Store, s.scan [kind.tag] = (s.index.filter fun key _ => [kind.tag].isPrefixOf key).toList :=
    fun s => (Std.ExtTreeMap.toList_filter (f := fun key _ => [kind.tag].isPrefixOf key)).symm
  have hindex : (s'.index.filter fun key _ => [kind.tag].isPrefixOf key) =
      s.index.filter fun key _ => [kind.tag].isPrefixOf key := by
    apply Std.ExtTreeMap.ext_getElem?
    intro key
    rw [Std.ExtTreeMap.getElem?_filter', Std.ExtTreeMap.getElem?_filter']
    by_cases hk : [kind.tag] <+: key
    · have hget : s'.index[key]? = s.index[key]? := h key (Key.kindOf?_eq_some_iff.2 hk)
      rw [hget]
    · rw [← List.isPrefixOf_iff_prefix, Bool.not_eq_true] at hk
      simp [hk]
  rw [keysOf, keysOf, hscan, hscan, hindex]

/-- The keys of deletions in a sound index are the markers. -/
theorem Store.Sound.mem_keysOf_deletion {s : Store} {limit : PrefixLength} (h : s.Sound limit) {key : Bytes} :
    key ∈ s.keysOf .deletion ↔ ∃ domain, (s.get? (Sweeper.marker domain)).isSome ∧ Sweeper.marker domain = key := by
  rw [Store.mem_keysOf]
  constructor
  · rintro ⟨hkind, hsome⟩
    obtain ⟨value, hv⟩ := Option.isSome_iff_exists.1 hsome
    obtain ⟨k, -, rfl⟩ := h.wellFormed hv
    rw [Key.kindOf?_encode] at hkind
    cases k with
    | deletion domain => exact ⟨domain, hsome, rfl⟩
    | streams | manifest | source | target => simp [Key.kind] at hkind
  · rintro ⟨domain, hsome, rfl⟩
    exact ⟨Key.kindOf?_encode _, hsome⟩

namespace Sweeper

variable {limit : PrefixLength} {domains : DomainSet} {keys : List Bytes} {key : Bytes} {s s' : Store} {w : Sweeper}

/-! ## Sets of domains -/

theorem mem_filter {f : Domain → Bool} {domain : Domain} : domain ∈ domains.filter f ↔ domain ∈ domains ∧ f domain := by
  simp [Std.ExtTreeSet.mem_filter]

theorem mem_remarked {domain : Domain} :
    domain ∈ remarked domains s ↔ domain ∈ domains ∧ (s.get? (marker domain)).isSome := mem_filter

theorem mem_release {again : DomainSet} {domain : Domain} :
    domain ∈ (w.release domains again).pending ↔ domain ∈ w.pending ∧ (domain ∉ domains ∨ domain ∈ again) := by
  rw [release, mem_filter, Bool.or_eq_true, Bool.not_eq_true', Bool.eq_false_iff, ne_eq,
    Std.ExtTreeSet.contains_iff_mem, Std.ExtTreeSet.contains_iff_mem]

/-! ## Markers -/

/-- If the keys of deletions can be read, they are the markers of the domains. -/
theorem mem_markedDomains (h : markedDomains limit s = .ok domains) {domain : Domain} :
    domain ∈ domains ↔ (s.get? (marker domain)).isSome := by
  obtain ⟨marked, hm, h⟩ := bind_eq_ok_iff.1 h
  cases h
  rw [Std.ExtTreeSet.mem_ofList, List.contains_iff_mem, mem_iff_of_mapM hm]
  constructor
  · rintro ⟨key, hkey, hdom⟩
    obtain ⟨hkind, hsome⟩ := Store.mem_keysOf.1 hkey
    rwa [marker, Key.deletion_of_domainOf hkind hdom]
  · intro hsome
    exact ⟨_, Store.mem_keysOf.2 ⟨Key.kindOf?_encode _, hsome⟩, Key.domainOf_deletion limit domain⟩

/-- Markers can be read. -/
theorem exists_markedDomains (limit : PrefixLength) (h : ∀ key ∈ s.keysOf .deletion, ∃ domain, marker domain = key) :
    ∃ domains, markedDomains limit s = .ok domains := by
  obtain ⟨marked, hm⟩ := mapM_isOk fun key hkey => by
    obtain ⟨domain, rfl⟩ := h key hkey
    exact ⟨domain, Key.domainOf_deletion limit domain⟩
  exact ⟨_, bind_eq_ok_iff.2 ⟨marked, hm, rfl⟩⟩

/-! ## The keys of the domains -/

/-- The source record of the key belongs to one of the domains. -/
def Doomed (limit : PrefixLength) (domains : DomainSet) (key : Bytes) : Prop :=
  Key.kindOf? key = some .source ∧ ∃ domain ∈ domains, Key.domainOf limit key = .ok domain

/-- The domains of these keys can be read. -/
def Readable (limit : PrefixLength) (keys : List Bytes) : Prop :=
  ∀ key ∈ keys, ∃ domain, Key.domainOf limit key = .ok domain

theorem mem_doomedKeys (h : key ∈ (doomedKeys limit domains keys).1) :
    key ∈ keys ∧ ∃ domain ∈ domains, Key.domainOf limit key = .ok domain := by
  induction keys with
  | nil => cases h
  | cons k keys ih =>
    unfold doomedKeys at h
    cases hd : Key.domainOf limit k with
    | error e => simp [hd] at h
    | ok domain =>
      simp only [hd] at h
      split at h
      · next hc =>
        rcases List.mem_cons.1 h with rfl | h
        · exact ⟨List.mem_cons_self, domain, Std.ExtTreeSet.contains_iff_mem.1 hc, hd⟩
        · exact ⟨List.mem_cons_of_mem _ (ih h).1, (ih h).2⟩
      · exact ⟨List.mem_cons_of_mem _ (ih h).1, (ih h).2⟩

/-- The key can be read and belongs to one of the domains. -/
def belongs (limit : PrefixLength) (domains : DomainSet) (key : Bytes) : Bool :=
  match Key.domainOf limit key with
  | .ok domain => domains.contains domain
  | .error _ => false

theorem belongs_iff : belongs limit domains key = true ↔ ∃ domain ∈ domains, Key.domainOf limit key = .ok domain := by
  unfold belongs
  cases Key.domainOf limit key <;> simp

/-- Among readable keys all those of the domains are found, in order. -/
theorem doomedKeys_of_readable (domains : DomainSet) (h : Readable limit keys) :
    doomedKeys limit domains keys = (keys.filter (belongs limit domains), none) := by
  induction keys with
  | nil => rfl
  | cons k keys ih =>
    obtain ⟨domain, hd⟩ := h k List.mem_cons_self
    have hrest := ih fun key hk => h key (List.mem_cons_of_mem _ hk)
    have hb : belongs limit domains k = domains.contains domain := by rw [belongs, hd]
    unfold doomedKeys
    rw [hd, hrest, List.filter_cons, hb]

/-- The source records of the domains, in key order. -/
def recordsOf (limit : PrefixLength) (domains : DomainSet) (s : Store) : List Bytes :=
  (s.keysOf .source).filter (belongs limit domains)

theorem mem_recordsOf : key ∈ recordsOf limit domains s ↔ Doomed limit domains key ∧ (s.get? key).isSome := by
  rw [recordsOf, List.mem_filter, Store.mem_keysOf, belongs_iff, Doomed]
  tauto

/-! ## The plan -/

/-- Cutting a list in pieces loses nothing. -/
theorem flatten_chunks {α : Type} {n fuel : Nat} (hn : 0 < n) {xs : List α} (hf : xs.length ≤ fuel) :
    (chunks n fuel xs).flatten = xs := by
  induction fuel generalizing xs with
  | zero => rw [List.length_eq_zero_iff.1 (Nat.le_zero.1 hf), chunks, List.flatten_nil]
  | succ fuel ih =>
    unfold chunks
    split
    · next he => rw [List.isEmpty_iff.1 he, List.flatten_nil]
    · next he =>
      have hpos : 0 < xs.length := List.length_pos_iff.2 fun e => he (List.isEmpty_iff.2 e)
      rw [List.flatten_cons, ih, List.take_append_drop]
      rw [List.length_drop]
      omega

/-- A piece has only elements of the list. -/
theorem mem_of_mem_chunks {α : Type} {n fuel : Nat} {xs piece : List α} (hp : piece ∈ chunks n fuel xs) {x : α}
    (hx : x ∈ piece) : x ∈ xs := by
  induction fuel generalizing xs with
  | zero => cases hp
  | succ fuel ih =>
    unfold chunks at hp
    split at hp
    · cases hp
    · rcases List.mem_cons.1 hp with rfl | hp
      · exact List.mem_of_mem_take hx
      · exact List.mem_of_mem_drop (ih hp)

/-- A sweep plans to remove records of the domains only. -/
theorem mem_plan {piece : List Bytes} (hp : piece ∈ (w.plan domains s).1) (hk : key ∈ piece) :
    Doomed w.prefixLength domains key ∧ (s.get? key).isSome := by
  have hchunk : ∃ n fuel, piece ∈ chunks n fuel (doomedKeys w.prefixLength domains (s.keysOf .source)).1 := by
    unfold plan at hp
    cases hd : doomedKeys w.prefixLength domains (s.keysOf .source) with
    | mk doomed error =>
      cases error with
      | none => exact ⟨_, _, by simpa [hd] using hp⟩
      | some e =>
        simp only [hd, List.mem_filter] at hp
        exact ⟨_, _, hp.1⟩
  obtain ⟨n, fuel, hchunk⟩ := hchunk
  obtain ⟨hmem, hdom⟩ := mem_doomedKeys (mem_of_mem_chunks hchunk hk)
  obtain ⟨hkind, hsome⟩ := Store.mem_keysOf.1 hmem
  exact ⟨⟨hkind, hdom⟩, hsome⟩

/-- A list is cut into as many pieces as it has beginnings of a piece. -/
theorem length_chunks {α : Type} {n fuel : Nat} (hn : 0 < n) {xs : List α} (hf : xs.length ≤ fuel) :
    (chunks n fuel xs).length = (xs.length + n - 1) / n := by
  have hnone : 0 = (0 + n - 1) / n := (Nat.div_eq_of_lt (by omega)).symm
  induction fuel generalizing xs with
  | zero =>
    rw [Nat.le_zero.1 hf]
    exact hnone
  | succ fuel ih =>
    unfold chunks
    split
    · next he =>
      rw [List.isEmpty_iff.1 he]
      exact hnone
    · next he =>
      have hpos : 0 < xs.length := List.length_pos_iff.2 fun e => he (List.isEmpty_iff.2 e)
      rw [List.length_cons, ih (by rw [List.length_drop]; omega), List.length_drop]
      rcases Nat.le_total xs.length n with hle | hle
      · rw [Nat.sub_eq_zero_of_le hle, Nat.zero_add, Nat.div_eq_of_lt (by omega)]
        exact (Nat.div_eq_of_lt_le (by omega) (by omega)).symm
      · rw [← Nat.add_div_right _ hn]
        congr 1
        omega

/-- No piece is empty, and none is too long. -/
theorem length_of_mem_chunks {α : Type} {n fuel : Nat} (hn : 0 < n) {xs piece : List α}
    (hp : piece ∈ chunks n fuel xs) :
    1 ≤ piece.length ∧ piece.length ≤ n := by
  induction fuel generalizing xs with
  | zero => cases hp
  | succ fuel ih =>
    unfold chunks at hp
    split at hp
    · cases hp
    · next he =>
      rcases List.mem_cons.1 hp with rfl | hp
      · have hpos : 0 < xs.length := List.length_pos_iff.2 fun e => he (List.isEmpty_iff.2 e)
        rw [List.length_take]
        omega
      · exact ih hp

/-- If the keys can be read, the plan has all records of the domains, in as few commits as there can be. -/
theorem plan_of_readable (domains : DomainSet) (hr : Readable w.prefixLength (s.keysOf .source))
    (hb : 0 < w.batchSize) :
    ∃ pieces, w.plan domains s = (pieces, none) ∧ pieces.flatten = recordsOf w.prefixLength domains s ∧
      pieces.length = ((recordsOf w.prefixLength domains s).length + w.batchSize - 1) / w.batchSize ∧
      ∀ piece ∈ pieces, 1 ≤ piece.length ∧ piece.length ≤ w.batchSize := by
  refine ⟨_, ?_, flatten_chunks hb (Nat.le_refl _), length_chunks hb (Nat.le_refl _),
    fun piece hp => length_of_mem_chunks hb hp⟩
  rw [plan, doomedKeys_of_readable domains hr]
  rfl

/-! ## The commits -/

/-- A commit that only removes. -/
theorem get?_removal {removes : List Bytes} {stats : CommitStats} (h : s.commit { removes } = .ok (stats, s'))
    (key : Bytes) : s'.get? key = if key ∈ removes then none else s.get? key := by
  have hops : WriteBatch.operandsOf { removes } key = [] := rfl
  rw [Store.get?_commit h, Store.mergedAt]
  simp only [hops, ↓reduceIte, valuesOf_nil, List.getLast?_nil, Option.none_or]

theorem removeAll_eq (s : Store) (pieces : List (List Bytes)) :
    ∃ s', removeAll s pieces = (.ok (), s') ∧ s'.prefixLength = s.prefixLength ∧
      ∀ key, s'.get? key = if key ∈ pieces.flatten then none else s.get? key := by
  induction pieces generalizing s with
  | nil => exact ⟨s, rfl, rfl, fun key => by simp⟩
  | cons piece pieces ih =>
    obtain ⟨stats, s₁, h⟩ := Store.exists_commit_removes s piece
    obtain ⟨s', hr, hl, hg⟩ := ih s₁
    refine ⟨s', ?_, hl.trans (Store.prefixLength_commit h), ?_⟩
    · unfold removeAll
      rw [removal, h]
      exact hr
    · intro key
      rw [hg, get?_removal h, List.flatten_cons]
      by_cases hp : key ∈ piece <;> simp [hp]

/-- What the last commit of a sweep removes. -/
theorem finalRemoval_eq_ok_iff {b : WriteBatch} : w.finalRemoval domains s = .ok b ↔
    ∃ doomed, doomedKeys w.prefixLength domains (s.keysOf .source) = (doomed, none) ∧
      b = { removes := doomed ++ domains.toList.map marker } := by
  unfold finalRemoval
  cases hd : doomedKeys w.prefixLength domains (s.keysOf .source) with
  | mk doomed error => cases error <;> simp [eq_comm]

/-- The record goes with a sweep of the domains. -/
def Purged (limit : PrefixLength) (domains : DomainSet) (key : Bytes) : Prop :=
  Doomed limit domains key ∨ ∃ domain ∈ domains, marker domain = key

theorem mem_finalRemoval {b : WriteBatch} (h : w.finalRemoval domains s = .ok b) (hk : key ∈ b.removes) :
    Purged w.prefixLength domains key := by
  obtain ⟨doomed, hd, rfl⟩ := finalRemoval_eq_ok_iff.1 h
  rcases List.mem_append.1 hk with hk | hk
  · have hk' : key ∈ (doomedKeys w.prefixLength domains (s.keysOf .source)).1 := by rwa [hd]
    obtain ⟨hmem, hdom⟩ := mem_doomedKeys hk'
    exact .inl ⟨(Store.mem_keysOf.1 hmem).1, hdom⟩
  · obtain ⟨d, hd, rfl⟩ := List.mem_map.1 hk
    exact .inr ⟨d, Std.ExtTreeSet.mem_toList.1 hd, rfl⟩

/-- If the keys can be read, the last commit removes the records of the domains and the markers. -/
theorem finalRemoval_of_readable (domains : DomainSet) (hr : Readable w.prefixLength (s.keysOf .source)) :
    w.finalRemoval domains s = .ok { removes := recordsOf w.prefixLength domains s ++ domains.toList.map marker } :=
  finalRemoval_eq_ok_iff.2 ⟨_, doomedKeys_of_readable domains hr, rfl⟩

/-- If the keys can be read, the last commit leaves neither records nor markers of the domains. -/
theorem commitWith_finalRemoval (domains : DomainSet) (hr : Readable w.prefixLength (s.keysOf .source)) :
    ∃ stats s', s.commitWith (w.finalRemoval domains) = .ok (stats, s') ∧ s'.prefixLength = s.prefixLength ∧
      (∀ key, Purged w.prefixLength domains key → s'.get? key = none) ∧
      ∀ key, ¬Purged w.prefixLength domains key → s'.get? key = s.get? key := by
  have hb := finalRemoval_of_readable domains hr
  obtain ⟨stats, s', h⟩ :=
    Store.exists_commit_removes s (recordsOf w.prefixLength domains s ++ domains.toList.map marker)
  refine ⟨stats, s', ?_, Store.prefixLength_commit h, ?_, ?_⟩
  · rw [Store.commitWith, hb]
    exact h
  · intro key hk
    rw [get?_removal h]
    rcases hk with hk | ⟨d, hd, rfl⟩
    · by_cases hs : (s.get? key).isSome
      · rw [if_pos]
        exact List.mem_append_left _ (mem_recordsOf.2 ⟨hk, hs⟩)
      · rw [Option.not_isSome_iff_eq_none.1 hs, ite_self]
    · rw [if_pos]
      exact List.mem_append_right _ (List.mem_map.2 ⟨d, Std.ExtTreeSet.mem_toList.2 hd, rfl⟩)
  · intro key hk
    rw [get?_removal h, if_neg]
    intro hr
    exact hk (mem_finalRemoval hb hr)

/-- The last commit counts the records that were left and all the markers. -/
theorem removes_finalRemoval {domains : DomainSet} {stats : CommitStats}
    (hr : Readable w.prefixLength (s.keysOf .source)) (h : s.commitWith (w.finalRemoval domains) = .ok (stats, s')) :
    stats.removes = (recordsOf w.prefixLength domains s).length + domains.size := by
  rw [Store.commitWith, finalRemoval_of_readable domains hr] at h
  have hremoves := Store.removes_commit (b := { removes := _ }) h
  rw [hremoves, List.length_append, List.length_map, Std.ExtTreeSet.length_toList]

/-! ## The whole sweep -/

/-- A sweep has nothing to do, or it makes the planned commits, and after these the last one unless it fails. -/
theorem sweep_cases (w : Sweeper) (s : Store) :
    w.pending.isEmpty ∧ w.sweep s = (.ok {}, w, s) ∨ ∃ s₁, removeAll s (w.plan w.pending s).1 = (.ok (), s₁) ∧
      ((∃ e, w.sweep s = (.error e, w, s₁)) ∨
        ∃ stats commit s₂, (w.plan w.pending s).2 = none ∧
          s₁.commitWith (w.finalRemoval w.pending) = .ok (commit, s₂) ∧
          w.sweep s = (.ok stats, w.release w.pending (remarked w.pending s₂), s₂)) := by
  obtain ⟨s₁, hall, -, -⟩ := removeAll_eq s (w.plan w.pending s).1
  by_cases he : w.pending.isEmpty
  · exact .inl ⟨he, by rw [sweep, if_pos he]⟩
  · refine .inr ⟨s₁, hall, ?_⟩
    cases hp : w.plan w.pending s with
    | mk pieces failure =>
      rw [hp] at hall
      cases failure with
      | some e => exact .inl ⟨e, by simp only [sweep, if_neg he, hp, hall]⟩
      | none =>
        cases hc : s₁.commitWith (w.finalRemoval w.pending) with
        | error e => exact .inl ⟨e, by simp only [sweep, if_neg he, hp, hall, hc]⟩
        | ok r =>
          refine .inr ⟨⟨w.pending.size, pieces.flatten.length + (r.1.removes - w.pending.size), pieces.length + 1⟩,
            r.1, r.2, rfl, rfl, ?_⟩
          simp only [sweep, if_neg he, hp, hall, hc]

/-- Removing readable keys leaves the others readable. -/
theorem Readable.of_removal (hr : Readable limit (s.keysOf .source))
    (h : ∀ key, (s'.get? key).isSome → (s.get? key).isSome) : Readable limit (s'.keysOf .source) := by
  intro key hk
  rw [Store.mem_keysOf] at hk
  exact hr key (Store.mem_keysOf.2 ⟨hk.1, h key hk.2⟩)

/-- No domain is marked again within a sweep that nothing interrupts, so none stays pending. -/
theorem release_remarked (hm : ∀ domain ∈ w.pending, s.get? (marker domain) = none) :
    w.release w.pending (remarked w.pending s) = { w with pending := ∅ } := by
  have hempty : (w.release w.pending (remarked w.pending s)).pending = ∅ := by
    apply Std.ExtTreeSet.ext_mem
    intro domain
    simp only [mem_release, mem_remarked, Std.ExtTreeSet.not_mem_empty, iff_false]
    rintro ⟨hd, hn | ⟨-, hs⟩⟩
    · exact hn hd
    · rw [hm domain hd] at hs
      cases hs
  rw [← hempty]
  rfl

/-- What a sweep reports that nothing interrupts. -/
def report (w : Sweeper) (s : Store) : SweepStats :=
  if w.pending.isEmpty then {}
  else
    let removed := (recordsOf w.prefixLength w.pending s).length
    ⟨w.pending.size, removed, (removed + w.batchSize - 1) / w.batchSize + 1⟩

/-- A sweep over readable keys comes to its end and removes the records and the markers of the pending domains. -/
theorem sweep_of_readable (hr : Readable w.prefixLength (s.keysOf .source)) (hb : 0 < w.batchSize) :
    ∃ s', w.sweep s = (.ok (w.report s), { w with pending := ∅ }, s') ∧ s'.prefixLength = s.prefixLength ∧
      (∀ key, Purged w.prefixLength w.pending key → s'.get? key = none) ∧
      ∀ key, ¬Purged w.prefixLength w.pending key → s'.get? key = s.get? key := by
  by_cases he : w.pending.isEmpty
  · have hp : w.pending = ∅ := Std.ExtTreeSet.isEmpty_iff.1 he
    have hw : w = { w with pending := ∅ } := by rw [← hp]
    refine ⟨s, ?_, rfl, ?_, fun key _ => rfl⟩
    · rw [← hw, sweep, report, if_pos he, if_pos he]
    · intro key hk
      rcases hk with ⟨-, d, hd, -⟩ | ⟨d, hd, -⟩ <;> simp [hp] at hd
  · obtain ⟨pieces, hplan, hflatten, hlength, -⟩ := plan_of_readable w.pending hr hb
    obtain ⟨s₁, hall, hl₁, hg₁⟩ := removeAll_eq s pieces
    rw [hflatten] at hg₁
    have hr₁ : Readable w.prefixLength (s₁.keysOf .source) := hr.of_removal fun key hk => by
      rw [hg₁] at hk
      split at hk
      · cases hk
      · exact hk
    have hnone : recordsOf w.prefixLength w.pending s₁ = [] := by
      apply List.eq_nil_iff_forall_not_mem.2
      intro key hk
      obtain ⟨hdoomed, hsome⟩ := mem_recordsOf.1 hk
      rw [hg₁] at hsome
      split at hsome
      · cases hsome
      · next hn => exact hn (mem_recordsOf.2 ⟨hdoomed, hsome⟩)
    obtain ⟨commit, s', hc, hl, hgone, hrest⟩ := commitWith_finalRemoval w.pending hr₁
    have hremoves := removes_finalRemoval hr₁ hc
    rw [hnone, List.length_nil, Nat.zero_add] at hremoves
    have hmarkers : ∀ domain ∈ w.pending, s'.get? (marker domain) = none :=
      fun domain hd => hgone _ (.inr ⟨domain, hd, rfl⟩)
    refine ⟨s', ?_, hl.trans hl₁, hgone, fun key hk => ?_⟩
    · rw [← release_remarked hmarkers, sweep, report, if_neg he, if_neg he]
      simp only [hplan, hall, hc, hremoves, Nat.sub_self, Nat.add_zero, hflatten, hlength]
    · rw [hrest key hk, hg₁, if_neg]
      intro hmem
      exact hk (.inl (mem_recordsOf.1 hmem).1)

/-! ## The index after a sweep -/

section Purge

variable {phrase : Phrase} {domain : Domain} {live all : List Placement} {deleted : DomainSet}

theorem purged_source (hk : (Key.source phrase domain).WellFormed limit) :
    Purged limit domains (Key.source phrase domain).encode ↔ domain ∈ domains := by
  constructor
  · rintro (⟨-, d, hd, h⟩ | ⟨d, -, h⟩)
    · rw [Key.domainOf_source hk] at h
      cases h
      exact hd
    · cases Key.kind_eq_of_encode_eq (k := .deletion d) h
  · intro hd
    exact .inl ⟨Key.kindOf?_encode _, domain, hd, Key.domainOf_source hk⟩

/-- A sweep removes only source records and markers. -/
theorem not_purged {k : Key} (hs : k.kind ≠ .source) (hd : k.kind ≠ .deletion) : ¬Purged limit domains k.encode := by
  rintro (⟨h, -⟩ | ⟨d, -, h⟩)
  · rw [Key.kindOf?_encode] at h
    exact hs (Option.some.inj h)
  · exact hd (Key.kind_eq_of_encode_eq (k := .deletion d) h).symm

/-- Planned commits leave other records than those of sources. -/
theorem get?_removeAll {pieces : List (List Bytes)} (h : pieces ⊆ (w.plan domains s).1) {k : Key}
    (hk : k.kind ≠ .source) : (removeAll s pieces).2.get? k.encode = s.get? k.encode := by
  obtain ⟨s₁, hall, -, hg⟩ := removeAll_eq s pieces
  rw [hall, hg, if_neg]
  intro hmem
  obtain ⟨piece, hp, hkey⟩ := List.mem_flatten.1 hmem
  have hkind := (mem_plan (h hp) hkey).1.1
  rw [Key.kindOf?_encode] at hkind
  exact hk (Option.some.inj hkind)

/-- However a sweep ends, it leaves other records than those of sources and the markers. -/
theorem get?_sweep (w : Sweeper) (s : Store) {k : Key} (hs : k.kind ≠ .source) (hd : k.kind ≠ .deletion) :
    (w.sweep s).2.2.get? k.encode = s.get? k.encode := by
  rcases sweep_cases w s with ⟨-, h⟩ | ⟨s₁, hall, hrest⟩
  · rw [h]
  · have hplanned := get?_removeAll (List.Subset.refl (w.plan w.pending s).1) hs
    rw [hall] at hplanned
    rcases hrest with ⟨e, h⟩ | ⟨stats, commit, s₂, -, hc, h⟩
    · rw [h]
      exact hplanned
    · obtain ⟨b, hb, hcommit⟩ := bind_eq_ok_iff.1 hc
      obtain ⟨doomed, -, rfl⟩ := finalRemoval_eq_ok_iff.1 hb
      rw [h, ← hplanned]
      have hleft := get?_removal hcommit k.encode
      rwa [if_neg fun hmem => not_purged hs hd (mem_finalRemoval hb hmem)] at hleft

theorem get?_sweepInBackground (w : Sweeper) (s : Store) {k : Key} (hs : k.kind ≠ .source) (hd : k.kind ≠ .deletion) :
    (w.sweepInBackground s).2.2.get? k.encode = s.get? k.encode := by
  have hsweep := get?_sweep w s hs hd
  unfold sweepInBackground
  split
  · rfl
  · split
    · next h => rwa [h] at hsweep
    · exact hsweep

theorem purged_marker : Purged limit domains (marker domain) ↔ domain ∈ domains := by
  constructor
  · rintro (⟨h, -⟩ | ⟨d, hd, h⟩)
    · rw [marker, Key.kindOf?_encode] at h
      cases h
    · rwa [← Key.deletion_encode_inj h]
  · intro hd
    exact .inr ⟨domain, hd, rfl⟩

/-- The sentences that are left when domains are gone. -/
def keep (domains : DomainSet) (live : List Placement) : List Placement :=
  live.filter fun p => !domains.contains p.1.domain

theorem postingsOf_keep : postingsOf phrase domain (keep domains live) =
    if domain ∈ domains then [] else postingsOf phrase domain live := by
  have hfilter : (keep domains live).filter (·.1.domain == domain) =
      if domain ∈ domains then [] else live.filter (·.1.domain == domain) := by
    rw [keep, List.filter_filter]
    split
    · next hd =>
      apply List.filter_eq_nil_iff.2
      intro p _ h
      simp only [Bool.and_eq_true, beq_iff_eq, Bool.not_eq_true', Bool.eq_false_iff, ne_eq,
        Std.ExtTreeSet.contains_iff_mem] at h
      exact h.2 (h.1 ▸ hd)
    · next hd =>
      apply List.filter_congr
      intro p _
      rw [Bool.eq_iff_iff, Bool.and_eq_true, and_iff_left_iff_imp, beq_iff_eq, Bool.not_eq_true', Bool.eq_false_iff,
        ne_eq, Std.ExtTreeSet.contains_iff_mem]
      rintro rfl
      exact hd
  rw [postingsOf, hfilter]
  split <;> rfl

/-- The source keys of a sound index can be read. -/
theorem readable_of_sound (h : s.Sound limit) : Readable limit (s.keysOf .source) := by
  intro key hkey
  obtain ⟨hkind, hsome⟩ := Store.mem_keysOf.1 hkey
  obtain ⟨value, hv⟩ := Option.isSome_iff_exists.1 hsome
  obtain ⟨k, hk, rfl⟩ := h.wellFormed hv
  rw [Key.kindOf?_encode] at hkind
  cases k with
  | source phrase domain => exact ⟨domain, Key.domainOf_source hk⟩
  | streams | manifest | target | deletion => simp [Key.kind] at hkind

end Purge

end Sweeper

/-- Purging domains takes their sentences out of the live ones. -/
theorem Store.Reflects.purge {s s' : Store} {limit : PrefixLength} {live all : List Placement}
    {deleted domains rest : DomainSet} (h : s.Reflects limit live all deleted)
    (hgone : ∀ key, Sweeper.Purged limit domains key → s'.get? key = none)
    (hrest : ∀ key, ¬Sweeper.Purged limit domains key → s'.get? key = s.get? key)
    (hdel : ∀ domain, domain ∈ rest ↔ domain ∈ deleted ∧ domain ∉ domains) :
    s'.Reflects limit (Sweeper.keep domains live) all rest where
  wellFormed {key value} hv := by
    by_cases hp : Sweeper.Purged limit domains key
    · rw [hgone key hp] at hv
      cases hv
    · rw [hrest key hp] at hv
      exact h.wellFormed hv
  postings {phrase domain} hk := by
    rw [Sweeper.postingsOf_keep]
    by_cases hd : domain ∈ domains
    · rw [hgone _ ((Sweeper.purged_source hk).2 hd), if_pos hd]
      rfl
    · rw [hrest _ fun hp => hd ((Sweeper.purged_source hk).1 hp), if_neg hd]
      exact h.postings hk
  counts {phrase} hk := by
    have hstays : ¬Sweeper.Purged limit domains (Key.target phrase).encode := Sweeper.not_purged nofun nofun
    rw [hrest _ hstays]
    exact h.counts hk
  marked domain := by
    rw [hdel, ← h.marked]
    by_cases hd : domain ∈ domains
    · rw [hgone _ (Sweeper.purged_marker.2 hd)]
      simp [hd]
    · rw [hrest _ fun hp => hd (Sweeper.purged_marker.1 hp)]
      simp [hd]

end PhraseIndex
