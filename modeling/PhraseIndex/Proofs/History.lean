import PhraseIndex.Proofs.Failure
import PhraseIndex.Proofs.Installation
import PhraseIndex.Proofs.Positions
import PhraseIndex.Proofs.Retrieval

/-!
# Histories with crashes

A `History` is a run in which the program may stop for good at any point of a batch (`History.Stop`), after which the
index can only be opened again. It knows the positions of the last committed batch and the offsets that were handed out
so far. As long as sentences are committed by a whole corpus only and manifests by a sealed one (`History.Mended`), a
history stays `History.Coherent` (`History.coherent_step`), the disk keeps what it has, and new offsets lie behind all
that were handed out before (`History.Advances`).
-/

namespace PhraseIndex

/-! ## Offsets of appended sentences -/

namespace Corpus

variable {disk disk' : Disk} {c c' : Corpus} {entries : List ManifestFile} {placed : List Placement}
  {pair : SentencePair} {offset : Offset}

/-- The offsets that are answered while sentences are appended, up to the first one that fails. -/
def answered : Corpus → Disk → List SentencePair → List Offset
  | _, _, [] => []
  | c, disk, pair :: pairs =>
    match c.append disk pair with
    | (.error _, _, _) => []
    | (.ok offset, c, disk) => offset :: answered c disk pairs

theorem Grows.extent_le (h : c.Grows disk c' disk') : extent c.files ≤ extent c'.files := by
  obtain ⟨size, more, hsize, hfiles, -⟩ := h.files
  rw [hfiles, Corpus.files, extent_append, extent_append, extent_cons, extent_cons, extent_nil]
  dsimp only
  omega

/-- An offset lies between the ends of the corpus before and after. -/
theorem Retains.offset_append (h : c.Retains disk entries placed) (hfit : disk'.Fits)
    (ha : c.append disk pair = (.ok offset, c', disk')) :
    (extent c.files : Int) ≤ offset.toInt ∧ offset.toInt < extent c'.files := by
  rcases append_cases ha with ⟨e, he, -⟩ | ⟨hpair, c₁, disk₁, offset', hp, hw, he⟩
  · cases he
  · cases he
    have hle := (grows_prepare hp).extent_le
    have hfit₁ : disk₁.Fits := by
      cases hw
      exact hfit.of_le (Disk.le_append _ _ _)
    have h₁ := h.prepare (h.fits (hfit₁.of_le (le_prepare hp))).1 hp
    have hoffset := toInt_offset h₁.contiguous (h₁.fits hfit₁).2
    have hpos := Record.length_encode_pos pair
    cases hw
    rw [hoffset]
    refine ⟨by omega, ?_⟩
    simp only [files, extent_append, extent_cons, extent_nil]
    omega

/-- The answered offsets lie between the ends of the corpus before and after. -/
theorem Retains.answered {pairs : List SentencePair} {r : Except Error (List Offset)}
    (h : c.Retains disk entries placed) (hfit : disk'.Fits) (ha : Model.appendAll c disk pairs = (r, c', disk')) :
    ∀ o ∈ c.answered disk pairs, (extent c.files : Int) ≤ o.toInt ∧ o.toInt < extent c'.files := by
  induction pairs generalizing c disk r with
  | nil => simp [Corpus.answered]
  | cons pair pairs ih =>
    unfold Model.appendAll at ha
    unfold Corpus.answered
    cases hone : c.append disk pair with
    | mk first rest =>
      obtain ⟨c₁, disk₁⟩ := rest
      rw [hone] at ha
      cases first with
      | error e => simp
      | ok offset =>
        cases hrest : Model.appendAll c₁ disk₁ pairs with
        | mk offsets rest =>
          obtain ⟨c₂, disk₂⟩ := rest
          simp only [hrest] at ha
          cases ha
          have hfit₁ := hfit.of_le (le_appendAll hrest)
          have hoffset := h.offset_append hfit₁ hone
          have hfirst := (grows_append hone).extent_le
          have hlast := (grows_appendAll hrest).extent_le
          intro o ho
          rcases List.mem_cons.1 ho with rfl | ho
          · omega
          · have := ih (h.append hfit₁ hone) hrest o ho
            omega

end Corpus

/-- The sentences of a batch that come into the corpus: none if one of them is too long. -/
def UpdateBatch.admitted (b : UpdateBatch) : List SentencePair :=
  if b.entries.any fun pair => Model.sentenceLimit < pair.source.length then [] else b.entries

namespace Session

/-- The offsets that an open index answers while it appends these sentences. -/
def answered (s : Session) (pairs : List SentencePair) : List Offset :=
  s.model.elim [] fun m => m.corpus.answered s.durable.disk pairs

/-- The offsets that an operation hands out. -/
def answers (s : Session) : Operation → List Offset
  | .put batch _ => s.answered batch.admitted
  | .refuse batch sentences _ => s.answered (batch.entries.take sentences)
  | _ => []

end Session

/-! ## Histories -/

structure History where
  run : Run
  /-- The positions of the last committed batch. -/
  positions : Streams := .empty
  /-- All offsets that were handed out. -/
  handed : List Offset := []

namespace History

/-- Where in a batch the program stops. -/
inductive Stop
  /-- So many sentences are in the corpus, and of the record of the next one so many bytes, if its write had begun. -/
  | writing (sentences : Nat) (torn : Option Nat)
  /-- The batch is committed, or it has failed. -/
  | ended

/-- The last thing that the program does to the index. -/
def Stop.operation (batch : UpdateBatch) : Stop → Operation
  | writing sentences torn => .refuse batch sentences torn
  | ended => .put batch 0

inductive Event
  | operation (op : Operation)
  | stop (batch : UpdateBatch) (point : Stop)

/-- What is done to the index, before the program stops if it does. -/
def Event.op : Event → Operation
  | operation op => op
  | stop batch point => point.operation batch

def operate (path : Path) (h : History) (op : Operation) : History where
  run := h.run.step path op
  positions := (h.run.session.commits op).elim h.positions fun batch => h.positions.merge batch.streams
  handed := h.handed ++ h.run.session.answers op

def step (path : Path) (h : History) : Event → History
  | .operation op => h.operate path op
  | .stop batch point => (h.operate path (point.operation batch)).operate path .close

/-- The history of these events on an index that was never opened. -/
def after (disk : Disk) (path : Path) (events : List Event) : History :=
  events.foldl (step path) { run := .start disk }

/-- Sentences are committed by a whole corpus only, and a manifest by a sealed one only. So once a write was refused
within a record, batches with sentences fail until the index is opened again. -/
def Mended (disk : Disk) (path : Path) (events : List Event) : Prop :=
  Steps.Always (fun h e => some (step path h e)) (fun h e => h.run.session.Ready e.op) { run := .start disk } events

instance (disk : Disk) (path : Path) (events : List Event) : Decidable (Mended disk path events) :=
  inferInstanceAs (Decidable (Steps.Always _ _ _ _))

theorem mended_concat {disk : Disk} {path : Path} {events : List Event} {e : Event} :
    Mended disk path (events ++ [e]) ↔ Mended disk path events ∧ (after disk path events).run.session.Ready e.op :=
  Steps.always_concat

def disk (h : History) : Disk := h.run.session.durable.disk

/-- The end of the offsets that may have been handed out: what an open index counts, or all bytes of the corpus. -/
def reserved (path : Path) (h : History) : Nat :=
  h.run.session.model.elim (Corpus.bytesIn h.disk (Model.storagePath path)) fun m => Corpus.extent m.corpus.files

variable {path : Path} {h h' h'' : History} {m : Model}

/-! ## Coherence -/

/-- Index, corpus and ledger agree, the positions are those of the index, an open index has a valid configuration and
its directories, and the offsets that were handed out lie before the end that is reserved. -/
structure Coherent (path : Path) (h : History) : Prop where
  accounts : h.run.Accounts
  kept : h.run.Kept path
  positioned : h.run.session.Positioned h.positions
  clean : Corpus.Clean h.disk (Model.storagePath path)
  opened : ∀ m ∈ h.run.session.model, m.config.validate = .ok () ∧ Model.Installed path h.disk
  handed : ∀ o ∈ h.handed, o.toInt < h.reserved path

/-- The disk keeps everything, and new offsets lie behind the end that was reserved. -/
structure Advances (path : Path) (h h' : History) : Prop where
  keeps : h.disk.Keeps h'.disk
  reserved_le : h.reserved path ≤ h'.reserved path
  handed : ∃ new, h'.handed = h.handed ++ new ∧ ∀ o ∈ new, (h.reserved path : Int) ≤ o.toInt

theorem Advances.refl (path : Path) (h : History) : Advances path h h :=
  ⟨.refl _, Nat.le_refl _, [], by rw [List.append_nil], nofun⟩

theorem Advances.trans (a : Advances path h h') (b : Advances path h' h'') : Advances path h h'' where
  keeps := a.keeps.trans b.keeps
  reserved_le := a.reserved_le.trans b.reserved_le
  handed := by
    obtain ⟨new, hnew, hold⟩ := a.handed
    obtain ⟨newer, hnewer, hlate⟩ := b.handed
    have hle := a.reserved_le
    refine ⟨new ++ newer, by rw [hnewer, hnew, List.append_assoc], fun o ho => ?_⟩
    rcases List.mem_append.1 ho with ho | ho
    · exact hold o ho
    · have := hlate o ho
      omega

theorem coherent_start {disk : Disk} (hfresh : Corpus.Unused disk (Model.storagePath path)) :
    Coherent path { run := .start disk } where
  accounts := Run.accounts_start disk
  kept := Run.kept_start fun id => hfresh _ id (FileName.id?_ofId id)
  positioned := Session.positioned_start disk
  clean := hfresh.clean
  opened := Session.of_closed
  handed := nofun

/-! ### The disk -/

theorem keeps_openAt (hc : Coherent path h) (hfit : h.disk.Fits) (config : Config) :
    let s := h.run.session.step path (.openAt config)
    h.disk.Keeps s.durable.disk ∧ Corpus.Clean s.durable.disk (Model.storagePath path) ∧
      ∀ m ∈ s.model, m.config.validate = .ok () ∧ Model.Installed path s.durable.disk := by
  obtain ⟨files, manifest, hmanifest, hkept, -⟩ := hc.kept.corpus
  have hlen := (hkept.filed.laid.fits hfit).1
  simp only [Session.step]
  rcases Model.openAt_cases h.run.session.durable path config with ⟨e, he⟩ | ⟨d₁, hp, hd⟩
  · rw [he]
    exact ⟨.refl _, hc.clean, Session.of_closed⟩
  · obtain ⟨hvalid, hhome, hmake, hpin⟩ := Model.prepare_eq_ok_iff.1 hp
    obtain ⟨hnode, hbytes⟩ := Disk.makeDirectories_eq hmake
    obtain ⟨hindex, hkeeps₁⟩ := Disk.hasDirectories_of_make hmake
    have hfiled₁ := hkept.filed.congr (fun id => hnode _ (Run.length_indexPlace_lt path id)) hbytes
    have hclean₁ : Corpus.Clean d₁.disk (Model.storagePath path) := by
      refine hc.clean.of_nodes fun name hsome => ?_
      rwa [hnode] at hsome
      simp [Model.indexPlace, Model.storagePath, Path.join]
    rcases hd with ⟨e, he⟩ | ⟨streams, manifest', corpus, disk, -, hstored, hopen, hd⟩
    · rw [he]
      exact ⟨hkeeps₁, hclean₁, Session.of_closed⟩
    · rw [(Store.pin_eq_ok_iff.1 hpin).1] at hstored
      have hsame : manifest = manifest' := Except.ok.inj (hmanifest.symm.trans hstored)
      subst hsame
      obtain ⟨hkeeps₂, hclean₂, hdirs⟩ := Corpus.keeps_openAt hclean₁ hfiled₁ hkept.grown hlen hopen
      rcases hd with ⟨e, he⟩ | ⟨c, sweeper, rfl, -, he⟩
      · rw [he]
        exact ⟨hkeeps₁.trans hkeeps₂, hclean₂, Session.of_closed⟩
      · rw [he]
        refine ⟨hkeeps₁.trans hkeeps₂, hclean₂, fun m hm => ?_⟩
        cases hm
        refine ⟨hvalid, ?_, hindex.of_keeps hkeeps₂, hdirs c rfl⟩
        have hplace : h.disk.node? path.place = some .directory := beq_iff_eq.1 hhome
        rw [Disk.isDirectory, hkeeps₂.nodes (hkeeps₁.nodes hplace)]
        rfl

/-- Whatever an operation comes to, the disk keeps everything, its names stay clean, and an open index has a valid
configuration and its directories. -/
theorem keeps_operation (hc : Coherent path h) (hfit : h.disk.Fits) (op : Operation) :
    let s := h.run.session.step path op
    h.disk.Keeps s.durable.disk ∧ Corpus.Clean s.durable.disk (Model.storagePath path) ∧
      ∀ m ∈ s.model, m.config.validate = .ok () ∧ Model.Installed path s.durable.disk := by
  cases hm : h.run.session.model with
  | none =>
    have hclosed : (∀ config, op ≠ .openAt config) → h.run.session.step path op = h.run.session :=
      fun ho => congrArg Run.session (Run.step_of_closed path hm ho)
    cases op with
    | openAt config => exact keeps_openAt hc hfit config
    | put | refuse | compact | sweep | sweepInBackground | close =>
      rw [hclosed nofun]
      exact ⟨.refl _, hc.clean, hc.opened⟩
  | some m =>
    rcases Session.grows_cases path hm op with ⟨config, rfl⟩ | rfl | ⟨m', hm', hconfig, hgrows⟩
    · exact keeps_openAt hc hfit config
    · exact ⟨.refl _, hc.clean, Session.of_closed⟩
    · have hdir := (hc.kept.opened hm).1
      obtain ⟨hvalid, hinstalled⟩ := hc.opened m hm
      refine ⟨hgrows.keeps, ?_, fun m₁ hm₁ => ?_⟩
      · rw [← hdir]
        exact Corpus.Clean.grows (by rw [hdir]; exact hc.clean) hgrows
      · rw [hm'] at hm₁
        cases hm₁
        exact ⟨by rw [hconfig, hvalid], hinstalled.of_keeps hgrows.keeps⟩

/-! ### Offsets -/

theorem reserved_of_closed (path : Path) (hm : h.run.session.model = none) :
    h.reserved path = Corpus.bytesIn h.disk (Model.storagePath path) := by
  rw [reserved, hm, Option.elim_none]

/-- What an open index counts is in the corpus. -/
theorem reserved_le (hk : h.run.Kept path) (hclean : Corpus.Clean h.disk (Model.storagePath path)) :
    h.reserved path ≤ Corpus.bytesIn h.disk (Model.storagePath path) := by
  cases hm : h.run.session.model with
  | none => exact (reserved_of_closed path hm).le
  | some m =>
    obtain ⟨hdir, manifest, -, hretains⟩ := hk.opened hm
    have hfiled := hretains.kept.filed
    rw [hdir] at hfiled
    rw [reserved, hm, Option.elim_some, Corpus.bytesIn_eq hclean hfiled]
    exact hretains.extent_le

/-- An index that counts all bytes of its corpus reserves them all. -/
theorem reserved_of_whole (hk : h.run.Kept path) (hclean : Corpus.Clean h.disk (Model.storagePath path))
    (hw : h.run.session.Whole) : h.reserved path = Corpus.bytesIn h.disk (Model.storagePath path) := by
  cases hm : h.run.session.model with
  | none => exact reserved_of_closed path hm
  | some m =>
    obtain ⟨hdir, manifest, -, hretains⟩ := hk.opened hm
    have hfiled := (hretains.kept_of_whole (hw m hm)).filed
    rw [hdir] at hfiled
    rw [reserved, hm, Option.elim_some, Corpus.bytesIn_eq hclean hfiled]

/-- What is reserved stays so, also when the index is opened again or closed. -/
theorem reserved_operate (hc : Coherent path h) (op : Operation) (hk : (h.operate path op).run.Kept path)
    (hclean : Corpus.Clean (h.operate path op).disk (Model.storagePath path))
    (hkeeps : h.disk.Keeps (h.operate path op).disk) : h.reserved path ≤ (h.operate path op).reserved path := by
  have hwhole : (h.operate path op).run.session.Whole → h.reserved path ≤ (h.operate path op).reserved path := by
    intro hw
    rw [reserved_of_whole hk hclean hw]
    exact (reserved_le hc.kept hc.clean).trans (Corpus.bytesIn_le hkeeps _)
  cases hm : h.run.session.model with
  | none =>
    cases op with
    | openAt config => exact hwhole (Session.whole_openAt _ path config)
    | put | refuse | compact | sweep | sweepInBackground | close =>
      rw [reserved, reserved, disk, disk, operate, Run.step_of_closed path hm fun _ h => by cases h]
  | some m =>
    rcases Session.grows_cases path hm op with ⟨config, rfl⟩ | rfl | ⟨m', hm', -, hgrows⟩
    · exact hwhole (Session.whole_openAt _ path config)
    · exact hwhole Session.of_closed
    · have hm₁ : (h.operate path op).run.session.model = some m' := hm'
      rw [reserved, reserved, hm, hm₁, Option.elim_some, Option.elim_some]
      exact hgrows.extent_le

/-- What is handed out lies between the ends that are reserved before and after. -/
theorem answers_bounds (hc : Coherent path h) (op : Operation) (hfit : (h.operate path op).disk.Fits) :
    ∀ o ∈ h.run.session.answers op,
      (h.reserved path : Int) ≤ o.toInt ∧ o.toInt < (h.operate path op).reserved path := by
  cases hm : h.run.session.model with
  | none =>
    cases op with
    | put | refuse => simp [Session.answers, Session.answered, hm]
    | openAt | compact | sweep | sweepInBackground | close => simp [Session.answers]
  | some m =>
    obtain ⟨-, manifest, -, hretains⟩ := hc.kept.opened hm
    cases op with
    | openAt | compact | sweep | sweepInBackground | close => simp [Session.answers]
    | put batch seconds =>
      simp only [Session.answers, Session.answered, reserved, operate, disk, Run.step, Session.step, Session.act, hm,
        Option.elim_some] at hfit ⊢
      by_cases hlong : batch.entries.any fun pair => Model.sentenceLimit < pair.source.length
      · rw [UpdateBatch.admitted, if_pos hlong]
        exact fun o ho => absurd ho List.not_mem_nil
      · rw [UpdateBatch.admitted, if_neg hlong]
        rcases m.put_cases h.run.session.durable batch seconds with
          ⟨e, m', disk, hput, -, -, -, ⟨⟨pair, hp, hlimit, -⟩, -⟩ | ⟨offsets, ha, -⟩⟩ |
            ⟨m', placed, disk, stats, store, -, ha, -, -, -, -, hput⟩
        · exact absurd (List.any_eq_true.2 ⟨pair, hp, decide_eq_true hlimit⟩) hlong
        · rw [hput] at hfit ⊢
          exact hretains.answered hfit ha
        · rw [hput] at hfit ⊢
          exact hretains.answered hfit ha
    | refuse batch sentences torn =>
      simp only [Session.answers, Session.answered, reserved, operate, disk, Run.step, Session.step, Session.act, hm,
        Option.elim_some] at hfit ⊢
      obtain ⟨r, c, disk, ha, hb | ⟨bytes, pair, -, hb⟩⟩ :=
        m.breakOff_cases h.run.session.durable batch sentences torn
      · rw [hb] at hfit ⊢
        exact hretains.answered hfit ha
      · rw [hb] at hfit ⊢
        have hgrows := Corpus.grows_tear c disk pair bytes
        have hle := hgrows.extent_le
        intro o ho
        have hbounds := hretains.answered (hfit.of_le hgrows.le) ha o ho
        dsimp only
        omega

/-! ### Steps -/

theorem coherent_operate (hc : Coherent path h) (op : Operation) (hready : h.run.session.Ready op)
    (hfit : h.disk.Fits) (hfit' : (h.operate path op).disk.Fits) :
    Coherent path (h.operate path op) ∧ Advances path h (h.operate path op) := by
  obtain ⟨hkeeps, hclean, hopened⟩ := keeps_operation hc hfit op
  have hkept : (h.operate path op).run.Kept path := Run.kept_step hc.kept hc.accounts op hready hfit hfit'
  have hle := reserved_operate hc op hkept hclean hkeeps
  have hbounds := answers_bounds hc op hfit'
  refine ⟨⟨Run.accounts_step hc.accounts op, hkept, Session.positioned_step path hc.positioned op, hclean, hopened, ?_⟩,
    hkeeps, hle, _, rfl, fun o ho => (hbounds o ho).1⟩
  intro o ho
  rcases List.mem_append.1 ho with ho | ho
  · have := hc.handed o ho
    omega
  · exact (hbounds o ho).2

/-- Every event keeps a history coherent if what it commits is right, and later offsets lie behind those before. -/
theorem coherent_step (hc : Coherent path h) (e : Event) (hready : h.run.session.Ready e.op) (hfit : h.disk.Fits)
    (hfit' : (h.step path e).disk.Fits) : Coherent path (h.step path e) ∧ Advances path h (h.step path e) := by
  cases e with
  | operation op => exact coherent_operate hc op hready hfit hfit'
  | stop batch point =>
    -- Closing changes nothing on the disk.
    have hlast : (h.operate path (point.operation batch)).disk.Fits := hfit'
    obtain ⟨hc₁, ha₁⟩ := coherent_operate hc (point.operation batch) hready hfit hlast
    obtain ⟨hc₂, ha₂⟩ := coherent_operate hc₁ .close (fun _ _ => trivial) hlast hfit'
    exact ⟨hc₂, ha₁.trans ha₂⟩

theorem after_concat (disk : Disk) (path : Path) (events : List Event) (e : Event) :
    after disk path (events ++ [e]) = (after disk path events).step path e := by
  rw [after, List.foldl_append]
  rfl

/-- Every history of an index that was never opened is coherent, as long as it is mended and the disk holds what is
written. -/
theorem coherent_after {disk : Disk} (hfresh : Corpus.Unused disk (Model.storagePath path)) (events : List Event)
    (hfit : ∀ before, before <+: events → (after disk path before).disk.Fits) (hmended : Mended disk path events) :
    Coherent path (after disk path events) := by
  induction events using List.reverseRecOn with
  | nil => exact coherent_start hfresh
  | append_singleton events e ih =>
    obtain ⟨hmended', hready⟩ := mended_concat.1 hmended
    have hbefore := ih (fun before hb => hfit before (hb.trans (List.prefix_append _ _))) hmended'
    have hlast := hfit _ List.prefix_rfl
    rw [after_concat] at hlast ⊢
    exact (coherent_step hbefore e hready (hfit events (List.prefix_append _ _)) hlast).1

/-- A history in which the system refuses no write within a record, unless the program stops then, is mended, and the
corpus is whole. -/
theorem mended_of_untorn {disk : Disk} (hfresh : Corpus.Unused disk (Model.storagePath path)) {events : List Event}
    (hfit : ∀ before, before <+: events → (after disk path before).disk.Fits)
    (hu : ∀ e ∈ events, ∀ op, e = .operation op → ¬op.Tears) :
    Mended disk path events ∧ (after disk path events).run.session.Whole := by
  induction events using List.reverseRecOn with
  | nil => exact ⟨trivial, Session.of_closed⟩
  | append_singleton events e ih =>
    have hbefore : ∀ before, before <+: events → (after disk path before).disk.Fits :=
      fun before hb => hfit before (hb.trans (List.prefix_append _ _))
    obtain ⟨hmended, hwhole⟩ := ih hbefore fun e he => hu e (List.mem_append_left _ he)
    have hlast := hfit _ List.prefix_rfl
    rw [after_concat] at hlast ⊢
    refine ⟨mended_concat.2 ⟨hmended, hwhole.ready e.op⟩, ?_⟩
    cases e with
    | operation op =>
      have hkept := (coherent_after hfresh events hbefore hmended).kept
      exact Run.whole_step hkept hwhole (hu _ (List.mem_append_right _ List.mem_cons_self) op rfl) hlast
    | stop batch point => exact Session.of_closed

/-- Later offsets lie behind the bytes that are in the corpus now. -/
theorem advances_after {disk : Disk} (hfresh : Corpus.Unused disk (Model.storagePath path)) (events later : List Event)
    (hfit : ∀ before, before <+: events ++ later → (after disk path before).disk.Fits)
    (hmended : Mended disk path (events ++ later)) :
    Advances path (after disk path events) (after disk path (events ++ later)) := by
  induction later using List.reverseRecOn with
  | nil =>
    rw [List.append_nil]
    exact .refl path _
  | append_singleton later e ih =>
    rw [← List.append_assoc] at hfit hmended ⊢
    obtain ⟨hmended', hready⟩ := mended_concat.1 hmended
    have hbefore : ∀ before, before <+: events ++ later → (after disk path before).disk.Fits :=
      fun before hb => hfit before (hb.trans (List.prefix_append _ _))
    have hlast := hfit _ List.prefix_rfl
    have hc := coherent_after hfresh _ hbefore hmended'
    rw [after_concat] at hlast ⊢
    exact (ih hbefore hmended').trans (coherent_step hc e hready (hbefore _ List.prefix_rfl) hlast).2

/-! ### Searching -/

/-- What a search needs of a state: the index agrees with the live sentence pairs, which lie in order and can be
read. -/
theorem Coherent.searchable (hc : Coherent path h) (hm : h.run.session.model = some m) :
    h.run.session.durable.store.Reflects m.config.prefixLength h.run.ledger.live h.run.ledger.all
        h.run.ledger.deleted ∧
      m.config.prefixLength ≠ 0 ∧ (∀ x ∈ h.run.ledger.live, x.1.source.length ≤ Model.sentenceLimit) ∧
      (h.run.ledger.live.Pairwise fun x y => x.2 < y.2) ∧
      ∀ x ∈ h.run.ledger.live, m.corpus.retrieve h.disk x.2 = .ok x.1 := by
  obtain ⟨hvalid, -⟩ := hc.opened m hm
  obtain ⟨-, manifest, -, hretains⟩ := hc.kept.opened hm
  obtain ⟨_, hlimit, -⟩ := bind_eq_ok_iff.1 hvalid
  refine ⟨(hc.accounts.opened m hm).reflects hc.accounts.indexed, by simpa using require_eq_ok_iff.1 hlimit, ?_,
    hretains.kept.ordered.sublist hc.kept.live, ?_⟩
  · exact fun x hx => hc.kept.lengths x (hc.kept.live.subset hx)
  · exact fun x hx => hretains.retrieved _ (hc.kept.live.subset hx)

/-- In an empty model directory there are no corpus files. -/
theorem unused_emptyDisk : Corpus.Unused Run.emptyDisk (Model.storagePath Run.modelPath) :=
  fun name _ _ => Run.free_emptyDisk name

end History

end PhraseIndex
