/-
**Head records are exact.**

A transaction notes the authors whose postings it stages, so the postings of the others are those of
its snapshot. Its commit scans the merged table from the newest end of each touched author and
rewrites their records in the same batch.

* `Tracks` — what a transaction on postings keeps, with one lemma per call.
* `headIn_newest` — **the scan through the overlay finds the newest two postings.**
* `heads_exact` — after every commit of every run each author's record is the newest two postings,
  the only one, or absent.
-/

import Wok.Db.Entries

namespace Wok.Db

open Wok.Library

/-! ### What a record says -/

/-- The positions of an author's postings among the entries of the index. -/
def PostedAt (entries : List Kv) (author : Bytes) (p : AuthorPosition) : Prop :=
  p.Fits ∧ entryAt author p ∈ entries

/-- The record decodes to the newest two postings, or there is none of either. -/
def HeadRight (entries : List Kv) (author : Bytes) : Option Bytes → Prop
  | none => ∀ p, ¬PostedAt entries author p
  | some raw => ∃ head, AuthorHead.decode raw = .ok head ∧
      Newest (PostedAt entries author) (some head)

/-- Each author's record is right. -/
def HeadsExact (db : RocksDb) : Prop :=
  ∀ author : Bytes, author.length = 32 →
    HeadRight ((db.view authorDbi).listed false) author (db.heads author)

theorem headRight_encode {entries : List Kv} {author : Bytes} {head : Option AuthorHead}
    (newest : Newest (PostedAt entries author) head) :
    HeadRight entries author (head.map AuthorHead.encode) := by
  cases head with
  | none => exact newest
  | some head =>
    refine ⟨head, ?_, newest⟩
    obtain ⟨first, next⟩ := head
    cases next with
    | none =>
      have posted : PostedAt entries author first := (newest first).mpr rfl
      exact AuthorHead.decode_encode posted.1 (by rintro next ⟨⟩) (by rintro next ⟨⟩)
    | some next =>
      obtain ⟨posted, posted', older, _⟩ := newest
      apply AuthorHead.decode_encode posted.1
      · rintro other ⟨⟩
        exact posted'.1
      · rintro other ⟨⟩
        exact older

/-- The author index holds postings, with the records right. -/
structure Headed (db : RocksDb) : Prop where
  exact : HeadsExact db
  postings : ∀ e ∈ (db.view authorDbi).listed false, WellFormed e

/-! ### Touched authors -/

/-- A transaction over a snapshot whose author index holds postings: so does its own, and the postings
of authors it did not touch are those of the snapshot. -/
structure Tracks (db : RocksDb) (txn : RocksTxn) : Prop where
  base : txn.db = db
  postings : ∀ e ∈ (txn.view authorDbi).listed false, WellFormed e
  untouched : ∀ e : Kv, authorOf e.1 ∉ txn.touchedAuthors →
    (e ∈ (txn.view authorDbi).listed false ↔ e ∈ (db.view authorDbi).listed false)

/-- A call puts postings into the author index, if anything. -/
def RocksCall.Posts : RocksCall → Prop
  | .put dbi key val _ _ => dbi = authorDbi → WellFormed (key, val)
  | _ => True

namespace Tracks

variable {db : RocksDb} {txn txn' : RocksTxn} {dbi : Nat} {key val : Bytes}

section Calls

variable (tracks : Tracks db txn)

include tracks

/-- A row of a posting staged, or one of another table. -/
theorem stage (val : Bytes) {pk : Bytes} {value : Option Bytes} {entry : Option Kv}
    {readable : ∀ d, physical d = physical dbi → ∀ v ∈ value, Stored d pk v}
    (writes : Writes txn (txn.stage dbi key (pk, value) readable) dbi pk entry)
    (at' : dbi = authorDbi → WellFormed (key, val) ∧ pk = entryKey dbi key val)
    (made : ∀ e ∈ entry, e = (key, val)) : Tracks db (txn.stage dbi key (pk, value) readable) := by
  by_cases here : dbi = authorDbi
  · subst here
    obtain ⟨wellFormed, rfl⟩ := at' rfl
    refine ⟨tracks.base, fun e inside => ?_, fun e apart => ?_⟩
    · rcases (writes.mem_listed e).mp inside with new | ⟨old, _⟩
      · exact made e new ▸ wellFormed
      · exact tracks.postings e old
    · have touched : (txn.stage authorDbi key (entryKey authorDbi key val, value)
          readable).touchedAuthors = txn.touchedAuthors.insert (authorOf key) :=
        if_pos ⟨rfl, wellFormed.1⟩
      rw [touched, List.mem_insert_iff, not_or] at apart
      have other : entryKey authorDbi e.1 e.2 ≠ entryKey authorDbi key val := fun same => apart.1
        (congrArg (authorOf ·.1) (View.entryCode_injective_on (q := (key, val)) authorDbi_dupSort
          (entryKey_inj.mp same)))
      rw [writes.mem_listed, ← tracks.untouched e apart.2]
      exact ⟨fun is => (is.resolve_left fun new => other (made e new ▸ rfl)).1,
        fun old => .inr ⟨old, other⟩⟩
  · have kept : (txn.stage dbi key (pk, value) readable).touchedAuthors = txn.touchedAuthors :=
      if_neg fun is => here is.1
    refine ⟨tracks.base, ?_, ?_⟩
    · rw [writes.listed_other (Ne.symm here)]
      exact tracks.postings
    · rw [writes.listed_other (Ne.symm here), kept]
      exact tracks.untouched

theorem changeCount {insert : Bool} (changed : txn.changeCount dbi insert = .ok txn') :
    Tracks db txn' := by
  simp only [RocksTxn.changeCount, bind_eq_ok] at changed
  obtain ⟨n, _, changed⟩ := changed
  split_ifs at changed <;> cases changed <;> exact ⟨tracks.base, tracks.postings, tracks.untouched⟩

theorem mirror (change : List Bytes → List Bytes) : Tracks db (txn.mirror dbi key change) := by
  unfold RocksTxn.mirror
  split_ifs
  · exact ⟨tracks.base, tracks.postings, tracks.untouched⟩
  · exact tracks

theorem put (flags : PutFlags) (fits : combined dbi = true → val.length < 2 ^ 32 - 1)
    (posting : dbi = authorDbi → WellFormed (key, val)) :
    Tracks db (txn.put dbi key val flags fits).2 := by
  unfold RocksTxn.put
  by_cases cover : dbi = coverDbi
  · rw [if_pos cover]
    exact tracks
  rw [if_neg cover]
  split
  · exact tracks
  split
  · exact tracks
  · exact tracks
  split
  · exact tracks
  rename_i made
  have staged := tracks.stage val (txn.putValue_writes fits made (txn.stored_put fits made))
    (fun here => ⟨posting here, rfl⟩) fun e new => (Option.some.inj new).symm
  simp only []
  split
  · exact staged
  · rename_i txn' counted
    have tracks' : Tracks db txn' := by
      split_ifs at counted
      · cases counted
        exact staged
      · exact staged.changeCount counted
    dsimp only
    exact tracks'.mirror _

theorem delOne (dbi : Nat) (key : Bytes) (val : Option Bytes)
    (named : (spec dbi).flags.dupSort = true → val.isSome = true) :
    Tracks db (txn.delOne dbi key val).2 := by
  unfold RocksTxn.delOne
  simp only []
  split
  · exact tracks
  · exact tracks
  rename_i made
  obtain ⟨writes, shown⟩ := txn.delValue_writes made key (txn.stored_del made)
  have staged := tracks.stage (val.getD []) writes (fun here => by
    subst here
    obtain ⟨v, rfl⟩ := Option.isSome_iff_exists.mp (named authorDbi_dupSort)
    obtain ⟨old, shown⟩ := Option.isSome_iff_exists.mp shown
    have there := View.shown_key shown
    have same : old = (key, v) :=
      View.entryCode_injective_on (q := (key, v)) authorDbi_dupSort (entryKey_inj.mp there)
    exact ⟨same ▸ tracks.postings old (View.mem_listed_shown.mpr (there ▸ shown)), rfl⟩)
    fun e new => absurd new (Option.not_mem_none e)
  split
  · exact staged
  · rename_i counted
    by_cases wrong : combined dbi = true ∧ key.length ≠ 8
    · rw [if_pos wrong] at counted
      cases counted
    · rw [if_neg wrong] at counted
      exact (staged.changeCount counted).mirror _

theorem delAll (dbi : Nat) (entries : List (Bytes × Option Bytes))
    (named : (spec dbi).flags.dupSort = true → ∀ e ∈ entries, e.2.isSome = true) (removed : Bool) :
    Tracks db (RocksTxn.delAll dbi txn entries removed).2 := by
  induction entries generalizing txn removed with
  | nil => exact tracks
  | cons e entries ih =>
    have deleted := tracks.delOne dbi e.1 e.2 fun dups => named dups e List.mem_cons_self
    rw [RocksTxn.delAll]
    split
    · rename_i result
      rw [result] at deleted
      exact deleted
    · rename_i result
      rw [result] at deleted
      exact ih deleted (fun dups e inside => named dups e (.tail _ inside)) _

theorem call {call : RocksCall} (posts : call.Posts) : Tracks db (txn.call call).2 := by
  cases call with
  | put dbi key val flags fits => exact tracks.put flags fits posts
  | del dbi key val =>
    show Tracks db (txn.del dbi key val).2
    unfold RocksTxn.del
    split_ifs with cover whole
    · exact tracks
    · split
      · exact tracks
      · refine tracks.delAll dbi _ (fun _ e inside => ?_) false
        obtain ⟨v, _, rfl⟩ := List.mem_map.mp inside
        rfl
    · exact tracks.delOne dbi key val fun dups => by
        simpa [dups, Option.isSome_iff_ne_none] using whole
  | clear dbi =>
    show Tracks db (txn.clear dbi).2
    unfold RocksTxn.clear
    by_cases cover : dbi = coverDbi
    · rw [if_pos cover]
      exact tracks
    rw [if_neg cover]
    split
    · exact tracks
    · refine tracks.delAll dbi _ (fun dups e inside => ?_) false
      obtain ⟨entry, _, rfl⟩ := List.mem_map.mp inside
      simp [dups]

theorem calls (calls : List RocksCall) (posts : ∀ call ∈ calls, call.Posts) :
    Tracks db (txn.calls calls) := by
  induction calls generalizing txn with
  | nil => exact tracks
  | cons call calls ih =>
    exact ih (tracks.call (posts call (.head _))) fun later inside => posts later (.tail _ inside)

end Calls

/-! ### What a commit writes -/

variable {author : Bytes}

/-- **The scan through the overlay finds the newest two postings.** -/
theorem headIn_newest (tracks : Tracks db txn) (length : author.length = 32) :
    Newest (PostedAt ((txn.view authorDbi).listed false) author) (txn.headIn author) := by
  have member : ∀ e ∈ txn.scanned author, (txn.view authorDbi).Holds e ∧ authorOf e.1 ≤ author := by
    intro e inside
    obtain ⟨listed, side⟩ := List.mem_filter.mp inside
    have holds := View.mem_listed.mp listed
    exact ⟨holds, (onSide_author length (tracks.postings e (View.mem_listed.mpr holds))).mp side⟩
  have wellFormed : ∀ e ∈ txn.scanned author, WellFormed e := fun e inside =>
    tracks.postings e (View.mem_listed.mpr (member e inside).1)
  obtain ⟨clean, newest⟩ := scanFold_newest wellFormed (fun e inside => (member e inside).2)
    ((@View.listed_sorted (txn.view authorDbi) true).filter _)
  have same : PostedAt ((txn.view authorDbi).listed false) author =
      fun p => ∃ e ∈ txn.scanned author, authorOf e.1 = author ∧ positionOf e = p := by
    funext p
    apply propext
    constructor
    · rintro ⟨fits, posted⟩
      have mine := authorOf_entryAt length p
      refine ⟨entryAt author p, List.mem_filter.mpr ⟨View.mem_listed.mpr (View.mem_listed.mp posted),
        ?_⟩, mine, positionOf_entryAt length fits⟩
      exact (onSide_author length (tracks.postings _ posted)).mpr mine.le
    · rintro ⟨e, inside, rfl, rfl⟩
      refine ⟨positionOf_fits e, ?_⟩
      rw [entryAt_positionOf (wellFormed e inside)]
      exact View.mem_listed.mpr (member e inside).1
  rw [RocksTxn.headIn, if_neg (by rw [clean]; exact Bool.false_ne_true), same]
  exact newest

/-- **A commit leaves every record right**, if they were. -/
theorem written (tracks : Tracks db txn) (exact : HeadsExact db) :
    Headed (txn.written txn.newHeads) := by
  have listed : ((txn.written txn.newHeads).view authorDbi).listed false
      = (txn.view authorDbi).listed false := View.listed_ext rfl (txn.raw_written _ authorDbi)
  refine ⟨fun author length => ?_, listed ▸ tracks.postings⟩
  rw [listed]
  show HeadRight _ author (if author ∈ txn.touchedAuthors then _ else txn.db.heads author)
  split_ifs with touched
  · exact headRight_encode (tracks.headIn_newest length)
  · have same : PostedAt ((txn.view authorDbi).listed false) author
        = PostedAt ((db.view authorDbi).listed false) author := by
      funext p
      rw [PostedAt, tracks.untouched _ (by rwa [authorOf_entryAt length])]
      rfl
    have before := exact author length
    rw [tracks.base]
    unfold HeadRight at before ⊢
    rwa [same]

end Tracks

/-! ### Runs -/

theorem Headed.empty : Headed .empty := by
  have none : (RocksDb.empty.view authorDbi).listed false = [] :=
    (Tallied.listed_begin .empty authorDbi).symm.trans ((Tallied.empty (n := 0)).shows authorDbi)
  refine ⟨fun author _ => ?_, none ▸ nofun⟩
  rw [none]
  exact fun p posted => nomatch posted.2

theorem Headed.run {db : RocksDb} (headed : Headed db) (txns : List (List RocksCall × Bool))
    (posts : ∀ txn ∈ txns, ∀ call ∈ txn.1, call.Posts) :
    ∃ db', db.run txns = .ok db' ∧ Headed db' := by
  refine foldlM_total Headed (fun db txn inside headed => ?_) headed
  by_cases done : txn.2 = true
  · have begun : Tracks db (RocksTxn.begin db) := by
      refine ⟨rfl, ?_, fun e _ => ?_⟩ <;> rw [Tallied.listed_begin]
      exact headed.postings
    rw [if_pos done, RocksTxn.commit_eq]
    exact ⟨_, rfl, (begun.calls txn.1 (posts txn inside)).written headed.exact⟩
  · exact ⟨db, if_neg done, headed⟩

/-- **The head records are exact after every commit.** Whatever calls the transactions make, with
postings put into the author index, and whichever of them commit, each author's record decodes to the
newest two of its postings, newest first, or the only one, and is absent when there is none. The
postings are those the calls leave of empty tables. -/
theorem heads_exact (txns : List (List RocksCall × Bool))
    (posts : ∀ txn ∈ txns, ∀ call ∈ txn.1, call.Posts) :
    ∃ db, RocksDb.empty.run txns = .ok db ∧ HeadsExact db ∧
      ((∀ dbi, putsInto (txns.flatMap Prod.fst) dbi < 2 ^ 64) →
        (db.view authorDbi).listed false = (Tables.empty.run txns).rows authorDbi) := by
  obtain ⟨db, ran, headed⟩ := Headed.empty.run txns posts
  refine ⟨db, ran, headed.exact, fun few => ?_⟩
  obtain ⟨db', ran', tallied⟩ := (Tallied.empty (n := 0)).run txns fun dbi => by
    rw [zero_add]
    exact few dbi
  obtain rfl := Except.ok.inj (ran.symm.trans ran')
  exact (Tallied.listed_begin db authorDbi).symm.trans (tallied.shows authorDbi)

def sampleAuthor : Bytes := List.replicate 32 7

def samplePosting (p : AuthorPosition) : RocksCall :=
  .put authorDbi (entryAt sampleAuthor p).1 (entryAt sampleAuthor p).2 {} nofun

def sampleUnposting (p : AuthorPosition) : RocksCall :=
  .del authorDbi (entryAt sampleAuthor p).1 (some (entryAt sampleAuthor p).2)

/-- Three postings, of which the newest is deleted, and the next one by a transaction that aborts. -/
def samplePostings : List (List RocksCall × Bool) :=
  [([samplePosting ⟨3, 1⟩, samplePosting ⟨5, 3⟩, samplePosting ⟨5, 2⟩], true),
    ([sampleUnposting ⟨5, 2⟩], false), ([sampleUnposting ⟨5, 3⟩], true)]

theorem heads_exact_three : ∃ db, RocksDb.empty.run samplePostings = .ok db ∧
    db.heads sampleAuthor = some (AuthorHead.mk ⟨5, 2⟩ (some ⟨3, 1⟩)).encode ∧
    HeadRight [entryAt sampleAuthor ⟨3, 1⟩, entryAt sampleAuthor ⟨5, 2⟩] sampleAuthor
      (db.heads sampleAuthor) := by
  obtain ⟨db, ran, exact, replay⟩ := heads_exact samplePostings (by
    simp [samplePostings, samplePosting, sampleUnposting, RocksCall.Posts,
      entryAt_wellFormed (show sampleAuthor.length = 32 from rfl)])
  have heads : (RocksDb.empty.run samplePostings).map (fun db => db.heads sampleAuthor)
      = .ok (some (AuthorHead.mk ⟨5, 2⟩ (some ⟨3, 1⟩)).encode) := by decide +kernel
  have left : (Tables.empty.run samplePostings).rows authorDbi
      = [entryAt sampleAuthor ⟨3, 1⟩, entryAt sampleAuthor ⟨5, 2⟩] := by decide +kernel
  rw [ran] at heads
  have right := exact sampleAuthor rfl
  rw [replay fun _ => List.countP_le_length.trans_lt (by decide), left] at right
  exact ⟨db, ran, Except.ok.inj heads, right⟩

end Wok.Db
