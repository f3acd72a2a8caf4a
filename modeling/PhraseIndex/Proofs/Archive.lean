import Mathlib.Data.List.Induction
import Mathlib.Data.List.Infix
import PhraseIndex.Proofs.Installation

/-!
# Offsets for ever

An `Archive` is a storage directory over time: sentence pairs are appended, and the corpus is opened again and again,
each time with any manifest that it had before, or with none. However old the manifest, opening finds all files as they
are (`Archive.Settled.reopen`), so every offset keeps its meaning, and no two records share a byte
(`Archive.stable_after`).
-/

namespace PhraseIndex

/-! ## One opening, one record -/

namespace Corpus

variable {disk disk' disk₁ : Disk} {dir : Path} {c c' : Corpus} {pair : SentencePair} {entries : List ManifestFile}
  {placed : List Placement}

theorem Unused.filed (h : Unused disk dir) : Filed disk dir [] where
  laid := trivial
  fresh id _ := h _ id (FileName.id?_ofId id)

/-- In an unused directory that can be made, opening makes the first file, which is empty. -/
theorem exists_openAt_of_unused (h : Unused disk dir) (hdir : dir.place ≠ [])
    (hm : disk.makeDirectories dir.place = .ok disk₁) (maxFileSize : Nat) :
    ∃ c disk', openAt disk dir .empty maxFileSize = (.ok c, disk') ∧ c.full = [] ∧
    disk'.bytes c.active.handle = [] := by
  have hdeep := (Disk.makeDirectories_eq hm).1
  have h₁ : Unused disk₁ dir := by
    intro name id hid
    rw [hdeep _ (by rw [List.length_append, List.length_singleton]; omega)]
    exact h name id hid
  have hfree : disk₁.node? (filePath dir 0).place = none := h₁ _ 0 (FileName.id?_ofId 0)
  have hcreate := openOrCreate_eq hfree (Disk.hasDirectories_of_make hm).1 hdir
  have hrun : run disk₁ dir .empty = .ok [] := run_of_grown h₁.filed trivial (by decide)
  simp only [openAt, openClearing, hm, hrun, strays_eq_nil h₁.clean h₁.filed, id_eq, removeStrays, ofRun,
    List.getLast?_nil, hcreate]
  refine ⟨_, _, rfl, rfl, ?_⟩
  show Disk.bytes _ disk₁.fresh = []
  rw [Disk.bytes_addFile, if_pos rfl]

/-- The record of the first sentence pair ends before that of the second one starts. -/
def Apart (p q : Placement) : Prop := p.2.toInt + (Record.encode p.1).length ≤ q.2.toInt

/-- A record starts where all that are stored have ended. -/
theorem Kept.apart_append {offset : Offset} (h : Kept disk c.dir c.files entries placed) (hfit : disk'.Fits)
    (ha : c.append disk pair = (.ok offset, c', disk')) : ∀ p ∈ placed, Apart p (pair, offset) := by
  obtain ⟨e, he, -⟩ | ⟨-, c₁, disk₁, start, hp, hw, hr⟩ := append_cases ha
  · cases he
  · cases hr
    cases hw
    have hfit₁ := hfit.of_le (Disk.le_append _ _ _)
    have hfit₀ := hfit₁.of_le (le_prepare hp)
    obtain ⟨h₁, -⟩ := h.prepare (h.filed.laid.fits hfit₀).1 hp
    intro p hmem
    rw [Apart, toInt_offset h₁.filed.laid.contiguous (h₁.filed.laid.fits hfit₁).2]
    exact (h₁.stored p hmem).add_le_extent h₁.filed.laid

end Corpus

/-! ## A directory over time -/

/-- A storage directory: the disk, the corpus if the last opening succeeded, the manifests that it has had, and the
sentence pairs with the offsets that were answered for them. -/
structure Archive where
  disk : Disk
  corpus : Option Corpus := none
  manifests : List Manifest := []
  placed : List Placement := []

namespace Archive

inductive Event
  | append (pair : SentencePair)
  /-- Flushing changes nothing that can be seen. -/
  | flush
  /-- Opening closes what is open. Every number that is not that of a manifest stands for the empty one. -/
  | reopen (number maxFileSize : Nat)

/-- Notes the present manifest. -/
def noted (a : Archive) : Archive :=
  { a with manifests := a.manifests ++ (a.corpus.map (·.manifest)).toList }

def append (a : Archive) (pair : SentencePair) : Archive :=
  match a.corpus with
  | none => a
  | some c =>
    let (offset, c, disk) := c.append a.disk pair
    { a with disk, corpus := some c, placed := a.placed ++ (offset.toOption.map (pair, ·)).toList }

def openWith (dir : Path) (a : Archive) (manifest : Manifest) (maxFileSize : Nat) : Archive :=
  { a with
    disk := (Corpus.openAt a.disk dir manifest maxFileSize).2
    corpus := (Corpus.openAt a.disk dir manifest maxFileSize).1.toOption }

def step (dir : Path) (a : Archive) : Event → Archive
  | .append pair => (a.append pair).noted
  | .flush => a.noted
  | .reopen number maxFileSize => (a.openWith dir (a.manifests[number]?.getD .empty) maxFileSize).noted

/-- A directory that is opened for the first time. -/
def first (disk : Disk) (dir : Path) (maxFileSize : Nat) : Archive :=
  (openWith dir { disk } .empty maxFileSize).noted

def after (disk : Disk) (dir : Path) (maxFileSize : Nat) (events : List Event) : Archive :=
  events.foldl (step dir) (first disk dir maxFileSize)

/-! ## What every event keeps -/

/-- The corpus is open, all that it ever stored is in its place, and its files have grown from all its manifests. -/
structure Settled (dir : Path) (a : Archive) (c : Corpus) : Prop where
  opened : a.corpus = some c
  place : c.dir = dir
  directories : a.disk.HasDirectories dir.place
  clean : Corpus.Clean a.disk dir
  kept : Corpus.Kept a.disk dir c.files [] a.placed
  grown : ∀ manifest ∈ a.manifests, Corpus.Grown manifest.files c.files
  apart : a.placed.Pairwise Corpus.Apart

variable {dir : Path} {a : Archive} {c : Corpus} {disk disk₁ : Disk} {maxFileSize : Nat}

/-- A manifest is taken by its number, or it is the empty one. -/
theorem known (a : Archive) (number : Nat) :
    a.manifests[number]?.getD .empty = .empty ∨ a.manifests[number]?.getD .empty ∈ a.manifests := by
  cases hn : a.manifests[number]? with
  | none => exact .inl rfl
  | some manifest => exact .inr (List.mem_of_getElem? hn)

theorem Settled.grown_of_known (h : Settled dir a c) {manifest : Manifest}
    (hm : manifest = .empty ∨ manifest ∈ a.manifests) : Corpus.Grown manifest.files c.files := by
  rcases hm with rfl | hm
  · trivial
  · exact h.grown manifest hm

/-- The present manifest is one more from which the files have grown. -/
theorem Settled.noted (h : Settled dir a c) (hfit : a.disk.Fits) : Settled dir a.noted c where
  opened := h.opened
  place := h.place
  directories := h.directories
  clean := h.clean
  kept := h.kept
  grown manifest hm := by
    have hext := (h.kept.filed.laid.fits hfit).2
    rcases List.mem_append.1 hm with hm | hm
    · exact h.grown manifest hm
    · rw [h.opened, Option.map_some, Option.toList_some, List.mem_singleton] at hm
      rw [hm]
      exact Corpus.grown_present h.kept.filed.laid.contiguous (by omega)
  apart := h.apart

/-- With any of its manifests the corpus is opened as it is, and nothing on the disk changes. -/
theorem Settled.reopen (h : Settled dir a c) (hfit : a.disk.Fits) (hdir : dir.place ≠ []) {manifest : Manifest}
    (hm : manifest = .empty ∨ manifest ∈ a.manifests) (maxFileSize : Nat) :
    ∃ c', Corpus.openAt a.disk dir manifest maxFileSize = (.ok c', a.disk) ∧ c'.files = c.files ∧ c'.dir = dir :=
  Corpus.openAt_of_clean h.clean h.kept.filed (h.grown_of_known hm) (h.kept.filed.laid.fits hfit).1 h.directories hdir
    (by simp [Corpus.files]) maxFileSize

theorem Settled.openWith (h : Settled dir a c) (hfit : a.disk.Fits) (hdir : dir.place ≠ []) {manifest : Manifest}
    (hm : manifest = .empty ∨ manifest ∈ a.manifests) (maxFileSize : Nat) :
    ∃ c', Settled dir (a.openWith dir manifest maxFileSize) c' := by
  obtain ⟨c', ho, hfiles, hplace⟩ := h.reopen hfit hdir hm maxFileSize
  refine ⟨c', ?_⟩
  rw [Archive.openWith, ho]
  exact
    { opened := rfl
      place := hplace
      directories := h.directories
      clean := h.clean
      kept := by rw [hfiles]; exact h.kept
      grown := by rw [hfiles]; exact h.grown
      apart := h.apart }

theorem append_eq {pair : SentencePair} {answer : Except Error Offset} {c' : Corpus} {disk' : Disk}
    (hc : a.corpus = some c) (ha : c.append a.disk pair = (answer, c', disk')) : a.append pair =
      { a with disk := disk', corpus := some c', placed := a.placed ++ (answer.toOption.map (pair, ·)).toList } := by
  simp only [Archive.append, hc, ha]

/-- A sentence pair goes behind all others, or the archive stays as it is but for the room that was made. -/
theorem Settled.append (h : Settled dir a c) (pair : SentencePair) (hfit : (a.append pair).disk.Fits) :
    ∃ c', Settled dir (a.append pair) c' := by
  cases ha : c.append a.disk pair with
  | mk answer rest =>
    obtain ⟨c', disk'⟩ := rest
    rw [append_eq h.opened ha] at hfit ⊢
    have hgrows := Corpus.grows_append ha
    have hkept := h.kept
    have hclean := h.clean
    rw [← h.place] at hkept hclean
    have hdir : c'.dir = dir := hgrows.dir.trans h.place
    have hgrown : ∀ manifest ∈ a.manifests, Corpus.Grown manifest.files c'.files := by
      intro manifest hm
      have hthis : Corpus.Kept a.disk c.dir c.files manifest.files a.placed :=
        ⟨hkept.filed, h.grown manifest hm, hkept.stored, hkept.ordered⟩
      obtain ⟨-, ⟨-, hk⟩ | ⟨offset, -, hk⟩⟩ := hthis.append hfit ha
      · exact hk.grown
      · exact hk.grown
    refine ⟨c', rfl, hdir, h.directories.of_keeps hgrows.keeps, ?_, ?_, hgrown, ?_⟩
    · rw [← h.place]
      exact hclean.grows hgrows
    · rw [← hdir]
      obtain ⟨-, ⟨⟨e, rfl⟩, hk⟩ | ⟨offset, rfl, hk⟩⟩ := hkept.append hfit ha
      · show Corpus.Kept disk' c'.dir c'.files [] (a.placed ++ [])
        rwa [List.append_nil]
      · exact hk
    · cases answer with
      | error e =>
        show (a.placed ++ []).Pairwise Corpus.Apart
        rw [List.append_nil]
        exact h.apart
      | ok offset =>
        refine List.pairwise_append.2 ⟨h.apart, List.pairwise_singleton _ _, fun p hp q hq => ?_⟩
        rw [List.mem_singleton.1 hq]
        exact hkept.apart_append hfit ha p hp

/-- Every event keeps the archive settled, as long as the disk holds what is written. -/
theorem Settled.step (h : Settled dir a c) (hdir : dir.place ≠ []) (hfit : a.disk.Fits) (event : Event)
    (hfit' : (a.step dir event).disk.Fits) : ∃ c', Settled dir (a.step dir event) c' := by
  cases event with
  | append pair =>
    obtain ⟨c', h'⟩ := h.append pair hfit'
    exact ⟨c', h'.noted hfit'⟩
  | flush => exact ⟨c, h.noted hfit⟩
  | reopen number maxFileSize =>
    obtain ⟨c', h'⟩ := h.openWith hfit hdir (a.known number) maxFileSize
    exact ⟨c', h'.noted hfit'⟩

/-- The first opening settles the archive. -/
theorem settled_first (hfresh : Corpus.Unused disk dir) (hdir : dir.place ≠ [])
    (hm : disk.makeDirectories dir.place = .ok disk₁) (hfit : (first disk dir maxFileSize).disk.Fits) :
    ∃ c, Settled dir (first disk dir maxFileSize) c := by
  obtain ⟨c, disk', ho, -⟩ := Corpus.exists_openAt_of_unused hfresh hdir hm maxFileSize
  have hempty : Corpus.Kept disk dir [] Manifest.empty.files [] := hfresh.filed.kept
  obtain ⟨-, hclean, hdirs⟩ := Corpus.keeps_openAt hfresh.clean hfresh.filed hempty.grown (by decide) ho
  obtain ⟨opened, hkept, hc⟩ := hempty.openAt (by decide) ho
  obtain ⟨rfl, hplace⟩ := hc c rfl
  have hopened : Settled dir (openWith dir { disk } .empty maxFileSize) c := by
    rw [openWith, ho]
    exact ⟨rfl, hplace, hdirs c rfl, hclean, hkept, nofun, .nil⟩
  exact ⟨c, hopened.noted hfit⟩

theorem after_append (disk : Disk) (dir : Path) (maxFileSize : Nat) (events : List Event) (event : Event) :
    after disk dir maxFileSize (events ++ [event]) = (after disk dir maxFileSize events).step dir event := by
  rw [after, List.foldl_append]
  rfl

theorem settled_after (hfresh : Corpus.Unused disk dir) (hdir : dir.place ≠ [])
    (hm : disk.makeDirectories dir.place = .ok disk₁) (events : List Event)
    (hfit : ∀ before, before <+: events → (after disk dir maxFileSize before).disk.Fits) :
    ∃ c, Settled dir (after disk dir maxFileSize events) c := by
  induction events using List.reverseRecOn with
  | nil => exact settled_first hfresh hdir hm (hfit [] List.prefix_rfl)
  | append_singleton events event ih =>
    obtain ⟨c, h⟩ := ih fun before hb => hfit before (hb.trans (List.prefix_append _ _))
    have hlast := hfit _ List.prefix_rfl
    rw [after_append] at hlast ⊢
    exact h.step hdir (hfit events (List.prefix_append _ _)) event hlast

/-! ## What was answered before -/

/-- The offsets and manifests that were answered first are still known. -/
structure Recalls (a b : Archive) : Prop where
  placed : a.placed <+: b.placed
  manifests : a.manifests <+: b.manifests

/-- No event takes back an offset or a manifest. -/
theorem recalls_step (dir : Path) (a : Archive) (event : Event) : a.Recalls (a.step dir event) := by
  cases event with
  | append pair =>
    have happend : a.placed <+: (a.append pair).placed ∧ (a.append pair).manifests = a.manifests := by
      unfold Archive.append
      split
      · exact ⟨List.prefix_rfl, rfl⟩
      · exact ⟨List.prefix_append _ _, rfl⟩
    refine ⟨happend.1, ?_⟩
    rw [← happend.2]
    exact List.prefix_append _ _
  | flush | reopen => exact ⟨List.prefix_rfl, List.prefix_append _ _⟩

theorem recalls_after (disk : Disk) (dir : Path) (limit : Nat) {before events : List Event} (hb : before <+: events) :
    (after disk dir limit before).Recalls (after disk dir limit events) := by
  obtain ⟨later, rfl⟩ := hb
  have hsplit : after disk dir limit (before ++ later) = later.foldl (step dir) (after disk dir limit before) :=
    List.foldl_append
  rw [hsplit]
  refine List.foldlRecOn (motive := (after disk dir limit before).Recalls) later (step dir)
    ⟨List.prefix_rfl, List.prefix_rfl⟩ ?_
  intro a ha event _
  have hstep := recalls_step dir a event
  exact ⟨ha.placed.trans hstep.placed, ha.manifests.trans hstep.manifests⟩

/-- Every manifest that the corpus has had is among those to open it with. -/
theorem mem_manifests_after (disk : Disk) (dir : Path) (limit : Nat) (events : List Event) {c : Corpus}
    (hc : (after disk dir limit events).corpus = some c) : c.manifest ∈ (after disk dir limit events).manifests := by
  have hnoted : ∀ a : Archive, a.noted.corpus = some c → c.manifest ∈ a.noted.manifests := by
    intro a ha
    have hcorpus : a.corpus = some c := ha
    rw [Archive.noted, hcorpus]
    exact List.mem_append_right _ List.mem_cons_self
  cases events using List.reverseRecOn with
  | nil => exact hnoted _ hc
  | append_singleton events event =>
    rw [after_append] at hc ⊢
    cases event with
    | append | flush | reopen => exact hnoted _ hc

/-- Offsets are stable for ever. In a storage directory that can be made and that has no corpus file at first, on a disk
that holds what is written, the corpus is open after every history, and every sentence pair that was ever appended is
retrieved at its offset. The offsets increase, each by the length of the record at least. And whatever manifest of its
history the corpus is opened with, or the empty one, it has the same files, and nothing on the disk changes. -/
theorem stable_after (disk disk₁ : Disk) (dir : Path) (limit : Nat) (events : List Event) (hdir : dir.place ≠ [])
    (hmake : disk.makeDirectories dir.place = .ok disk₁) (hfresh : Corpus.Unused disk dir)
    (hfit : ∀ before, before <+: events → (after disk dir limit before).disk.Fits) :
    ∃ c, (after disk dir limit events).corpus = some c ∧
      (∀ before, before <+: events → ∀ p ∈ (after disk dir limit before).placed,
        c.retrieve (after disk dir limit events).disk p.2 = .ok p.1) ∧
      ((after disk dir limit events).placed.Pairwise fun p q : Placement =>
        p.2 < q.2 ∧ p.2.toInt + (Record.encode p.1).length ≤ q.2.toInt) ∧
      ∀ before, before <+: events → ∀ manifest,
        manifest = .empty ∨ (∃ c₀, (after disk dir limit before).corpus = some c₀ ∧ c₀.manifest = manifest) →
        ∀ maxFileSize, ∃ c', Corpus.openAt (after disk dir limit events).disk dir manifest maxFileSize =
            (.ok c', (after disk dir limit events).disk) ∧ c'.manifest = c.manifest := by
  obtain ⟨c, h⟩ := settled_after hfresh hdir hmake events hfit
  refine ⟨c, h.opened, ?_, h.kept.ordered.and h.apart, ?_⟩
  · intro before hb p hp
    have hstored := h.kept.stored p ((recalls_after disk dir limit hb).placed.subset hp)
    have hlaid : Corpus.Laid (after disk dir limit events).disk c.dir 0 0 c.files := by
      rw [h.place]
      exact h.kept.filed.laid
    exact Corpus.retrieve_of_stored hlaid hstored
  · intro before hb manifest hm maxFileSize
    have hknown : manifest = .empty ∨ manifest ∈ (after disk dir limit events).manifests := by
      refine hm.imp_right ?_
      rintro ⟨c₀, hc₀, rfl⟩
      exact (recalls_after disk dir limit hb).manifests.subset (mem_manifests_after disk dir limit before hc₀)
    obtain ⟨c', ho, hfiles, -⟩ := h.reopen (hfit events List.prefix_rfl) hdir hknown maxFileSize
    exact ⟨c', ho, by rw [Corpus.manifest, hfiles, Corpus.manifest]⟩

/-! ### A history -/

def storage : Path := ⟨["", "storage"], "/storage"⟩

/-- Files of one record each are opened with the manifest of the first opening, go on as one larger file, and are opened
without a manifest at last. -/
def rolling : List Event :=
  [.append ⟨1, [7, 7, 7], [9], []⟩, .flush, .append ⟨2, [7], [], []⟩, .reopen 0 1000, .append ⟨1, [], [7], []⟩,
    .reopen 99 1]

theorem unused_storage : Corpus.Unused (.empty [""]) storage := by
  intro name id _
  have hplace : storage.place ++ [name] = ["", "storage", name] := rfl
  rw [hplace, Disk.empty, Disk.node?]
  simp

theorem stable_after_rolling : ∃ c, (after (.empty [""]) storage 1 rolling).corpus = some c ∧ c.fileCount = 2 ∧
    c.retrieve (after (.empty [""]) storage 1 rolling).disk 92 = .ok ⟨1, [], [7], []⟩ ∧
    ∃ c₀ c', (after (.empty [""]) storage 1 []).corpus = some c₀ ∧
      Corpus.openAt (after (.empty [""]) storage 1 rolling).disk storage c₀.manifest 1 =
        (.ok c', (after (.empty [""]) storage 1 rolling).disk) ∧ c'.manifest = c.manifest := by
  have hmake : Disk.makeDirectories (.empty [""]) storage.place =
      .ok (storage.place.upwards.foldl Disk.addDirectory (.empty [""])) :=
    Disk.makeDirectories_eq_ok_iff.2 ⟨by decide +kernel, by decide +kernel, rfl⟩
  have hfit : ∀ before ∈ rolling.inits, (after (.empty [""]) storage 1 before).disk.Fits := by decide +kernel
  have hplaced : (⟨1, [], [7], []⟩, 92) ∈ (after (.empty [""]) storage 1 rolling).placed := by decide +kernel
  have hcount : (after (.empty [""]) storage 1 rolling).corpus.map (·.fileCount) = some 2 := by decide +kernel
  obtain ⟨c₀, hc₀⟩ : ∃ c₀, (after (.empty [""]) storage 1 []).corpus = some c₀ :=
    Option.isSome_iff_exists.1 (by decide +kernel)
  obtain ⟨c, hc, hretrieve, -, hreopen⟩ :=
    stable_after (.empty [""]) _ storage 1 rolling (by decide) hmake unused_storage
    fun before hb => hfit before ((List.mem_inits _ _).2 hb)
  obtain ⟨c', ho, hsame⟩ := hreopen [] List.nil_prefix c₀.manifest (.inr ⟨c₀, hc₀, rfl⟩) 1
  have hpair := hretrieve rolling List.prefix_rfl _ hplaced
  rw [hc] at hcount
  exact ⟨c, hc, Option.some.inj hcount, hpair, c₀, c', hc₀, ho, hsame⟩

end Archive

end PhraseIndex
