import Mathlib.Data.Countable.Basic
import Mathlib.Logic.Equiv.List
import Omg.Collections.Precedes
import Omg.History.Manager

/-!
# No transaction is lost or returned twice

In every run of calls that add transactions and load the history, by any number of processes that
may end at any point, the history that is loaded is the list of the transactions that were written
to the live file, in this order and each of them once. The reason is an invariant of the two files:
the archive, read without repetitions, has all transactions that are not in the live file, and
possibly the first ones of the live file as well.

Source: `src/core/history.rs`.
-/

namespace Omg.History

open Control Collections HistoryManager List Text Function Option Guarded Guarded.Section

/-! ### The invariant -/

inductive Call
  | add (transaction : Transaction)
  | load

section Invariant

variable (codec : HistoryCodec) {ι : Type} (calls : ι → Call)

def archiveBytes (records : List Transaction) : Bytes :=
  utf8 (records.flatMap fun t => codec.renderRecord t ++ ['\n'])

def liveBytes (history : List Transaction) : Bytes := utf8 (codec.renderHistory history ++ ['\n'])

structure Holds (files : HistoryFiles) (archived live : List Transaction) : Prop where
  live : files.live = .missing ∧ live = [] ∨ files.live = .regular (liveBytes codec live)
  archive : files.archive = .missing ∧ archived = [] ∨
    files.archive = .regular (archiveBytes codec archived)

/-- The archive has all transactions that are not in the live file, and possibly the first ones of
the live file. -/
structure Covers (archived live committed : List Transaction) : Prop where
  length_le : live.length ≤ maxHistoryTransactions
  split : ∃ retired n, n ≤ live.length ∧ committed = retired ++ live ∧
    absorb [] archived = retired ++ live.take n

structure Recorded (committed : List Transaction) : Prop where
  nodup : committed.Nodup
  added : ∀ t ∈ committed, ∃ i, calls i = .add t

def Consistent (files : HistoryFiles) : Prop :=
  Recorded calls files.committed ∧
    ∃ archived live, Holds codec files archived live ∧ Covers archived live files.committed

def DistinctIds : Prop := ∀ i k t t', calls i = .add t → calls k = .add t' → t.id = t'.id → i = k

/-- How the call `i` may change the files. -/
structure OwnChange (i : ι) (files files' : HistoryFiles) : Prop where
  grows : files.committed <+: files'.committed
  added : ∀ t ∈ files'.committed, t ∈ files.committed ∨ calls i = .add t

structure OtherChange (i : ι) (files files' : HistoryFiles) : Prop where
  grows : files.committed <+: files'.committed
  kept : ∀ t, calls i = .add t → t ∈ files'.committed → t ∈ files.committed

variable {calls}

lemma OwnChange.of_committed_eq {i : ι} {fs fs' : HistoryFiles}
    (h : fs'.committed = fs.committed) : OwnChange calls i fs fs' := by
  refine ⟨h ▸ prefix_refl _, fun t ht => .inl ?_⟩
  rwa [h] at ht

def protocol (hids : DistinctIds calls) : Guarded.Protocol ι HistoryFiles where
  invariant := Consistent codec calls
  own := OwnChange calls
  others := OtherChange calls
  own_refl _ _ := .of_committed_eq rfl
  others_refl _ _ := ⟨prefix_refl _, fun _ _ h => h⟩
  others_trans _ _ _ _ h h' :=
    ⟨h.grows.trans h'.grows, fun t ht hmem => h.kept t ht (h'.kept t ht hmem)⟩
  others_of_own i k _ _ hk h := by
    refine ⟨h.grows, fun t ht hmem => ?_⟩
    rcases h.added t hmem with hmem | hi
    · exact hmem
    · exact absurd (hids k i t t ht hi rfl) hk

lemma Recorded.concat {committed : List Transaction} (h : Recorded calls committed) {i : ι}
    {t : Transaction} (hca : calls i = .add t) (hnew : t ∉ committed) :
    Recorded calls (committed ++ [t]) := by
  refine ⟨?_, fun t' ht' => ?_⟩
  · rw [← concat_eq_append]
    exact h.nodup.concat hnew
  rcases mem_append.mp ht' with ht' | ht'
  · exact h.added t' ht'
  · rw [mem_singleton.mp ht']
    exact ⟨i, hca⟩

lemma Recorded.eq_of_id (hids : DistinctIds calls) {committed : List Transaction}
    (h : Recorded calls committed) {t t' : Transaction} (ht : t ∈ committed) (ht' : t' ∈ committed)
    (hid : t.id = t'.id) : t = t' := by
  obtain ⟨i, hi⟩ := h.added t ht
  obtain ⟨k, hk⟩ := h.added t' ht'
  obtain rfl := hids i k t t' hi hk hid
  rw [hi] at hk
  exact Call.add.inj hk

end Invariant

/-! ### Lists of records -/

section Records

variable {archived live committed : List Transaction}

lemma absorb_take {retired live : List Transaction} (hnd : (retired ++ live).Nodup)
    (n k : ℕ) : absorb (retired ++ live.take n) (live.take k) = retired ++ live.take (max n k) := by
  rcases le_total k n with hle | hle
  · rw [max_eq_left hle]
    refine absorb_of_subset fun t ht => mem_append_right _ ?_
    exact take_subset_take_left live hle ht
  · rw [max_eq_right hle]
    have hsp : live.take k = live.take n ++ (live.drop n).take (k - n) := by
      rw [← take_add, Nat.add_sub_cancel' hle]
    rw [hsp, Collections.absorb_append,
      absorb_of_subset fun t ht => mem_append_right _ ht, absorb_of_nodup, append_assoc]
    rw [append_assoc, ← hsp]
    exact hnd.sublist ((take_sublist k live).append_left retired)

section

variable (h : Covers archived live committed)

include h

lemma Covers.absorb_append (hnd : committed.Nodup) : absorb [] (archived ++ live) = committed := by
  obtain ⟨retired, n, hn, rfl, harc⟩ := h.split
  have hta := absorb_take hnd n live.length
  rw [max_eq_right hn, take_length] at hta
  rw [Collections.absorb_append, harc, hta]

lemma Covers.retire (hnd : committed.Nodup) {k : ℕ}
    (hk : k ≤ live.length) : Covers (archived ++ live.take k) live committed := by
  obtain ⟨retired, n, hn, rfl, harc⟩ := h.split
  refine ⟨h.length_le, retired, max n k, max_le hn hk, rfl, ?_⟩
  rw [Collections.absorb_append, harc, absorb_take hnd]

lemma Covers.commit (hnd : committed.Nodup)
    (t : Transaction) {k : ℕ} (hk : k = live.length + 1 - maxHistoryTransactions) :
    Covers (archived ++ live.take k) (live.drop k ++ [t]) (committed ++ [t]) := by
  have hmax : 1 ≤ maxHistoryTransactions := by decide
  obtain ⟨retired, n, hn, rfl, harc⟩ := h.split
  refine ⟨?_, retired ++ live.take k, max n k - k, ?_, ?_, ?_⟩
  · rw [length_append, length_drop, length_singleton]
    omega
  · rw [length_append, length_drop]
    omega
  · rw [append_assoc, append_assoc, ← append_assoc (live.take k), take_append_drop]
  · have hta : (live.drop k ++ [t]).take (max n k - k) = (live.drop k).take (max n k - k) := by
      refine take_append_of_le_length ?_
      rw [length_drop]
      omega
    rw [Collections.absorb_append, harc, absorb_take hnd, hta, append_assoc,
      ← take_add, Nat.add_sub_cancel' (le_max_right n k)]

end

structure Positions (positions : SortedMap Text ℕ) (history : List Transaction) : Prop where
  found : ∀ id k, positions.get id = some k → ∃ t, history[k]? = some t ∧ t.id = id
  missing : ∀ id, positions.get id = none → ∀ t ∈ history, t.id ≠ id

lemma positions_empty : Positions .empty [] := by
  refine ⟨fun id k hget => ?_, fun id _ t ht => ?_⟩
  · cases hget
  · cases ht

lemma Positions.insert {poss : SortedMap Text ℕ} {hist : List Transaction}
    (h : Positions poss hist) (t : Transaction) :
    Positions (poss.insert t.id hist.length) (hist ++ [t]) := by
  refine ⟨fun id k hget => ?_, fun id hget t' ht' => ?_⟩
  · rw [SortedMap.get_insert] at hget
    split_ifs at hget with hid
    · obtain rfl := some.inj hget
      exact ⟨t, by simp, hid.symm⟩
    · obtain ⟨t', ht', hid'⟩ := h.found id k hget
      obtain ⟨hk, -⟩ := List.getElem?_eq_some_iff.mp ht'
      exact ⟨t', by rw [getElem?_append_left hk, ht'], hid'⟩
  · rw [SortedMap.get_insert] at hget
    split_ifs at hget with hid
    rcases mem_append.mp ht' with ht' | ht'
    · exact h.missing id hget t' ht'
    · rw [mem_singleton.mp ht']
      exact fun heq => hid heq.symm

/-- **Records with one identifier are equal: repeated ones are dropped.** -/
lemma collect_eq (manager : HistoryManager) {hist recs : List Transaction}
    {poss : SortedMap Text ℕ} (hpos : Positions poss hist)
    (hun : ∀ t ∈ hist ++ recs, ∀ t' ∈ hist ++ recs, t.id = t'.id → t = t') :
    manager.collect hist poss (recs.map .ok) = .ok (absorb hist recs) := by
  induction recs generalizing hist poss with
  | nil => rfl
  | cons t recs ih =>
    rw [map_cons, collect, absorb_cons, addNew]
    cases hget : poss.get t.id with
    | some k =>
      obtain ⟨t', ht', hid⟩ := hpos.found t.id k hget
      have hmem : t' ∈ hist := mem_of_getElem? ht'
      obtain rfl := hun t' (by simp [hmem]) t (by simp) hid
      simp only [ht', if_pos hmem]
      have hr : ∀ u ∈ hist ++ recs, u ∈ hist ++ t' :: recs := by
        intro u hu
        simp only [mem_append] at hu ⊢
        tauto
      exact ih hpos fun u hu u' hu' => hun u (hr u hu) u' (hr u' hu')
    | none =>
      have hnew : t ∉ hist := fun hmem => hpos.missing t.id hget t hmem rfl
      simp only [if_neg hnew]
      refine ih (hpos.insert t) ?_
      simpa using hun

end Records

section Sections

variable {ι : Type} {calls : ι → Call} {codec : HistoryCodec} {hids : DistinctIds calls} {i : ι}
  {α : Type} {manager : HistoryManager} {s₀ : HistoryFiles}
  {archived live drained : List Transaction}

def Cause.IsSystem (cause : Cause) : Prop := ∃ error, cause = .io error

def HistoryError.IsSystem (error : HistoryError) : Prop := error.cause.IsSystem

lemma section_systemCall {P : HistoryFiles → Prop}
    {f : HistoryFiles → Except Cause α × HistoryFiles} {Q : α → HistoryFiles → Prop}
    {E : Cause → HistoryFiles → Prop} (hf : ∀ s, Consistent codec calls s → P s →
      Consistent codec calls (f s).2 ∧ OwnChange calls i s (f s).2)
    (hok : ∀ s r, Consistent codec calls s → P s → (f s).1 = .ok r → Q r (f s).2)
    (her : ∀ s e, P s → (f s).1 = .error e → E e (f s).2)
    (hfa : ∀ s text, P s → E (.io text) s) (haf : ∀ s text, P s → E (.io text) (f s).2) :
    Guarded.Section (protocol codec hids) i P (systemCall f) Q E := by
  refine section_inside fun call s hI hP => ?_
  cases call with
  | works =>
    obtain ⟨hI', hown⟩ := hf s hI hP
    exact ⟨hI', hown, fun r hr => hok s r hI hP hr, fun e he => her s e hP he⟩
  | fails text =>
    refine ⟨hI, .of_committed_eq rfl, fun r hr => ?_, fun e he => ?_⟩
    · cases hr
    · cases he
      exact hfa s text hP
  | failsAfter text =>
    obtain ⟨hI', hown⟩ := hf s hI hP
    refine ⟨hI', hown, fun r hr => ?_, fun e he => ?_⟩
    · cases hr
    · cases he
      exact haf s text hP

lemma section_observe {P : HistoryFiles → Prop} {f : HistoryFiles → Except Cause α}
    {Q : α → HistoryFiles → Prop} {E : Cause → HistoryFiles → Prop}
    (hok : ∀ s r, Consistent codec calls s → P s → f s = .ok r → Q r s)
    (her : ∀ s e, P s → f s = .error e → E e s) (hfa : ∀ s text, P s → E (.io text) s) :
    Guarded.Section (protocol codec hids) i P (observe f) Q E :=
  section_systemCall (fun _ hI _ => ⟨hI, .of_committed_eq rfl⟩) hok her hfa hfa

lemma section_attempted {P : HistoryFiles → Prop} :
    Guarded.Section (protocol codec hids) i P (observe fun _ => .ok ()) (fun _ => P)
      fun _ _ => True :=
  section_observe (fun _ _ _ hP _ => hP) (fun _ _ _ _ => trivial) fun _ _ _ => trivial

/-! ### Loading -/

def Returns (s₀ : HistoryFiles) (value : α) (r : α) (s : HistoryFiles) : Prop := s = s₀ ∧ r = value

def FailsWith (s₀ : HistoryFiles) (cause : Cause) (s : HistoryFiles) : Prop :=
  s = s₀ ∧ cause.IsSystem

def Fails (s₀ : HistoryFiles) (error : HistoryError) (s : HistoryFiles) : Prop :=
  s = s₀ ∧ error.IsSystem

/-- From the files `s₀`, a part of a call returns `value` or fails, and changes nothing. -/
abbrev Reads (codec : HistoryCodec) (hids : DistinctIds calls) (i : ι) (s₀ : HistoryFiles)
    (t : HistoryM ι HistoryError α) (value : α) : Prop :=
  Guarded.Section (protocol codec hids) i (fun s => s = s₀) t (Returns s₀ value) (Fails s₀)

lemma section_look {f : HistoryFiles → Except Cause α} {val : α} (hf : f s₀ = .ok val) :
    Guarded.Section (protocol codec hids) i (fun s => s = s₀) (observe f) (Returns s₀ val)
      (FailsWith s₀) := by
  refine section_observe (fun s r _ hs hr => ?_) (fun s e hs he => ?_) fun s text hs => ?_
  · subst hs
    rw [hf] at hr
    exact ⟨rfl, (Except.ok.inj hr).symm⟩
  · rw [hs, hf] at he
    cases he
  · exact ⟨hs, text, rfl⟩

lemma section_lookWith {f : HistoryFiles → Except Cause α} {val : α} (hf : f s₀ = .ok val)
    (ctx : Cause → HistoryError) (hcon : ∀ cause, (ctx cause).cause = cause) :
    Reads codec hids i s₀ ((observe f).mapError ctx) val := by
  refine (section_look hf).mapError fun e s he => ⟨he.1, ?_⟩
  rw [HistoryError.IsSystem, hcon]
  exact he.2

lemma section_called (ctx : Cause → HistoryError) (hcon : ∀ cause, (ctx cause).cause = cause) :
    Reads codec hids i s₀ ((observe fun _ => .ok ()).mapError ctx) () := by
  refine section_lookWith ?_ ctx hcon
  rfl

lemma section_liveContent :
    Reads codec hids i s₀ (manager.liveContent (.regular (liveBytes codec live)))
      (codec.renderHistory live ++ ['\n']) := by
  have hdecode : decode (liveBytes codec live) = .ok (codec.renderHistory live ++ ['\n']) := by
    rw [decode, liveBytes, utf8Decode_utf8]
  unfold liveContent
  refine section_lookWith ?_ (withContext manager.readFileText) fun _ => rfl
  exact hdecode

section

variable (hliv : s₀.live = .missing ∧ live = [] ∨ s₀.live = .regular (liveBytes codec live))

include hliv

lemma exists_openLive : ∃ opened, openNoFollow s₀.live = .ok opened ∧
      Reads codec hids i s₀ (manager.parseLive codec opened) live := by
  rcases hliv with ⟨hmis, rfl⟩ | hreg
  · rw [hmis]
    exact ⟨none, rfl, .pure fun s hs => ⟨hs, rfl⟩⟩
  · rw [hreg]
    refine ⟨_, rfl, ?_⟩
    refine .bind_of_eq (section_called plain fun _ => rfl) ?_
    refine .bind_of_eq section_liveContent ?_
    rw [codec.parseHistory_render]
    exact .pure fun s hs => ⟨hs, rfl⟩

lemma section_loadLocked : Reads codec hids i s₀ (manager.loadLocked codec) live := by
  have hsym : decide (s₀.live = .symlink) = false := by
    rcases hliv with ⟨hmis, -⟩ | hreg
    · rw [hmis]; rfl
    · rw [hreg]; rfl
  have hlo : Guarded.Section (protocol codec hids) i (fun s => s = s₀)
      (observe fun fs => .ok (decide (fs.live = .symlink))).attempt
      (fun r s => s = s₀ ∧ r.toOption.getD false = false) (Fails s₀) := by
    have hobs : Guarded.Section (protocol codec hids) i (fun s => s = s₀)
        (observe fun fs => .ok (decide (fs.live = .symlink))) (Returns s₀ false)
        (FailsWith s₀) := by
      refine section_look ?_
      rw [hsym]
    refine hobs.attempt (fun r s hr => ⟨hr.1, hr.2⟩) fun e s he => ⟨he.1, rfl⟩
  refine .bind hlo fun isSymlink => ?_
  refine section_of_forall fun s _ hs => ?_
  obtain ⟨rfl, hfls⟩ := hs
  rw [hfls]
  refine .bind_of_eq (.pure fun s' hs' => ⟨hs', rfl⟩) ?_
  obtain ⟨opened, hope, hpr⟩ := exists_openLive hliv
  refine .bind_of_eq ?_ hpr
  refine section_lookWith ?_ _ fun _ => rfl
  exact hope

end

lemma exists_openArchive (har : s₀.archive = .missing ∧ archived = [] ∨
      s₀.archive = .regular (archiveBytes codec archived)) :
    ∃ opened, openNoFollow s₀.archive = .ok opened ∧
      Reads codec hids i s₀ (manager.archivedRecords codec opened) (archived.map .ok) := by
  rcases har with ⟨hmis, rfl⟩ | hreg
  · rw [hmis]
    exact ⟨none, rfl, .pure fun s hs => ⟨hs, rfl⟩⟩
  · rw [hreg]
    refine ⟨_, rfl, ?_⟩
    refine .bind_of_eq (section_called plain fun _ => rfl) ?_
    unfold recordsOf
    refine section_lookWith ?_ _ fun _ => rfl
    rw [archiveBytes, codec.parseRecords_render]

lemma collect_archived {committed : List Transaction} (hids : DistinctIds calls)
    (hrec : Recorded calls committed) (hcov : Covers archived live committed) :
    manager.collect [] .empty (archived.map .ok ++ live.map .ok) = .ok committed := by
  have habsorb := hcov.absorb_append hrec.nodup
  have hmem : ∀ t ∈ archived ++ live, t ∈ committed := fun t ht => by
    rw [← habsorb]
    exact mem_absorb.mpr (.inr ht)
  have hunique : ∀ t ∈ [] ++ (archived ++ live), ∀ t' ∈ [] ++ (archived ++ live),
      t.id = t'.id → t = t' :=
    fun t ht t' ht' => hrec.eq_of_id hids (hmem t ht) (hmem t' ht')
  rw [← map_append, collect_eq manager positions_empty hunique, habsorb]

/-- **The history that is loaded is the list of all transactions that were written.** -/
lemma section_loadUnlocked (h : Consistent codec calls s₀) :
    Reads codec hids i s₀ (manager.loadUnlocked codec) s₀.committed := by
  obtain ⟨hrec, archived, live, hho, hcov⟩ := h
  refine .bind_of_eq (section_loadLocked hho.live) ?_
  obtain ⟨opened, hope, hrs⟩ := exists_openArchive hho.archive
  refine .bind_of_eq ?_ (.bind_of_eq hrs ?_)
  · refine section_lookWith ?_ _ fun _ => rfl
    exact hope
  · rw [collect_archived hids hrec hcov]
    exact .pure fun s hs => ⟨hs, rfl⟩

/-! ### Loading succeeds -/

lemma runs_observe {f : HistoryFiles → Except Cause α} {m : Guarded ι HistoryFiles} {value : α}
    (hf : f m.data = .ok value) : Thread.Runs .works (observe f) m (.ok value) m := by
  have h : Thread.Runs .works (observe f) m (f m.data) m := Thread.Runs.perform
  rwa [hf] at h

lemma runs_observeWith {f : HistoryFiles → Except Cause α} {m : Guarded ι HistoryFiles} {value : α}
    (context : Cause → HistoryError) (hf : f m.data = .ok value) :
    Thread.Runs .works ((observe f).mapError context) m (.ok value) m :=
  (runs_observe hf).mapError context

lemma runs_loadLocked {m : Guarded ι HistoryFiles}
    (hlive : m.data.live = .missing ∧ live = [] ∨ m.data.live = .regular (liveBytes codec live)) :
    Thread.Runs .works (manager.loadLocked codec) m (.ok live) m := by
  have hsymlink : m.data.live ≠ .symlink := by
    rcases hlive with ⟨hmissing, -⟩ | hregular
    · simp [hmissing]
    · simp [hregular]
  refine .bind (.attempt (runs_observe (congrArg Except.ok (decide_eq_false hsymlink)))) ?_
  refine .bind (.ret () m) ?_
  rcases hlive with ⟨hmissing, rfl⟩ | hregular
  · exact .bind (runs_observeWith _ (by rw [hmissing]; rfl)) (.ret [] m)
  · refine .bind (runs_observeWith _ (by rw [hregular]; rfl)) ?_
    refine .bind (runs_observeWith plain rfl) ?_
    have hcontent : Thread.Runs .works (manager.liveContent (.regular (liveBytes codec live))) m
        (.ok (codec.renderHistory live ++ ['\n'])) m := by
      unfold liveContent
      refine runs_observeWith (withContext manager.readFileText) ?_
      rw [decode, liveBytes, utf8Decode_utf8]
    refine .bind hcontent ?_
    rw [codec.parseHistory_render]
    exact .ret live m

lemma runs_loadUnlocked {m : Guarded ι HistoryFiles} (hids : DistinctIds calls)
    (h : Consistent codec calls m.data) :
    Thread.Runs .works (manager.loadUnlocked codec) m (.ok m.data.committed) m := by
  obtain ⟨hrec, archived, live, hholds, hcovers⟩ := h
  refine .bind (runs_loadLocked hholds.live) ?_
  have hcollect : manager.collect [] .empty (archived.map .ok ++ live.map .ok) =
      .ok m.data.committed := collect_archived hids hrec hcovers
  rcases hholds.archive with ⟨hmissing, rfl⟩ | hregular
  · refine .bind (runs_observeWith _ (by rw [hmissing]; rfl)) (.bind (.ret [] m) ?_)
    rw [show ([] : List (Except Text Transaction)) = [].map .ok from rfl, hcollect]
    exact .ret _ m
  · refine .bind (runs_observeWith _ (by rw [hregular]; rfl)) ?_
    have hrecords : Thread.Runs .works (manager.recordsOf codec
        (.regular (archiveBytes codec archived))) m (.ok (archived.map .ok)) m := by
      unfold recordsOf
      refine runs_observeWith (withContext manager.recordText) ?_
      rw [archiveBytes, codec.parseRecords_render]
    refine .bind (.bind (runs_observeWith plain rfl) hrecords) ?_
    rw [hcollect]
    exact .ret _ m

/-- A load that takes the free lock and whose calls all work returns all transactions. -/
lemma runs_load [DecidableEq ι] {m : Guarded ι HistoryFiles} (hids : DistinctIds calls)
    (h : Consistent codec calls m.data) (hfree : m.owner = none) :
    Thread.Runs .works (manager.load codec i) m (.ok (.loaded m.data.committed)) m := by
  have hlocked : Thread.Runs .works (manager.withHistoryLock i (manager.loadUnlocked codec)) m
      (.ok m.data.committed) m := by
    refine .bind .perform (.bind .perform (.bind (.await (by simp [hfree])) ?_))
    refine .bind (runs_loadUnlocked (m := ⟨some i, m.data⟩) hids h).attempt ?_
    have hrelease : Guarded.release i (⟨some i, m.data⟩ : Guarded ι HistoryFiles) = m := by
      rw [Guarded.release, if_pos rfl, ← hfree]
    have hfreed : Thread.Runs .works (Guarded.free i (unlocked (.ok m.data.committed)))
        (⟨some i, m.data⟩ : Guarded ι HistoryFiles) (.ok m.data.committed)
        (Guarded.release i ⟨some i, m.data⟩) := .perform
    rwa [hrelease] at hfreed
  exact .bind hlocked (.ret _ m)

/-! ### Adding -/

variable (codec) in
def withArchive (s : HistoryFiles) (archived : List Transaction) : HistoryFiles :=
  { s with archive := .regular (archiveBytes codec archived) }

lemma archiveBytes_append (recs recs' : List Transaction) : archiveBytes codec (recs ++ recs') =
      archiveBytes codec recs ++ archiveBytes codec recs' := by
  simp [archiveBytes]

lemma archiveText_archiveBytes (recs : List Transaction) :
    archiveText codec (archiveBytes codec recs) drained = archiveBytes codec drained := by
  have hla : (archiveBytes codec recs).getLast?.any (· ≠ 0x0a) = false := by
    rcases eq_nil_or_concat' recs with rfl | ⟨init, t, rfl⟩
    · rfl
    · have hby : archiveBytes codec [t] = utf8 (codec.renderRecord t) ++ [0x0a] := by
        simp [archiveBytes]
        rfl
      rw [archiveBytes_append, hby, ← append_assoc, getLast?_concat]
      rfl
  rw [archiveText, hla]
  rfl

lemma validate_archiveBytes (recs : List Transaction) :
    manager.validate (codec.parseRecords (archiveBytes codec recs)) = .ok () := by
  rw [archiveBytes, codec.parseRecords_render]
  induction recs with
  | nil => rfl
  | cons t recs ih => exact ih

variable (codec s₀) in
def ArchiveOnly (s : HistoryFiles) : Prop := ∃ records, s = withArchive codec s₀ records

lemma consistent_withArchive (hrec : Recorded calls s₀.committed)
    (hliv : s₀.live = .missing ∧ live = [] ∨ s₀.live = .regular (liveBytes codec live))
    (hcov : Covers archived live s₀.committed) :
    Consistent codec calls (withArchive codec s₀ archived) :=
  ⟨hrec, archived, live, ⟨hliv, .inr rfl⟩, hcov⟩

section

variable (h : Consistent codec calls (withArchive codec s₀ archived))

include h

lemma section_setArchive : Guarded.Section (protocol codec hids) i (ArchiveOnly codec s₀)
      (setArchive (archiveBytes codec archived)) (fun _ s => s = withArchive codec s₀ archived)
      fun _ => ArchiveOnly codec s₀ := by
  have hset : ∀ s, ArchiveOnly codec s₀ s →
      { s with archive := .regular (archiveBytes codec archived) } =
        withArchive codec s₀ archived := by
    rintro s ⟨recs, rfl⟩
    rfl
  refine section_systemCall (fun s _ hs => ⟨?_, .of_committed_eq rfl⟩)
    (fun s r _ hs _ => hset s hs) (fun s e hs he => ?_) (fun s text hs => hs)
    fun s text hs => ⟨archived, hset s hs⟩
  · simp only
    rw [hset s hs]
    exact h
  · cases he

lemma section_finishAppend
    {s₁ : HistoryFiles} (wr : Except Cause Unit) : Guarded.Section (protocol codec hids) i
      (fun s => ArchiveOnly codec s₀ s ∧ (wr = .ok () → s = s₁))
      (manager.finishAppend (archiveBytes codec archived) wr) (fun _ s => s = s₁)
      fun _ _ => True := by
  cases wr with
  | ok r =>
    refine .bind (section_attempted.mapError fun _ _ _ => trivial) fun _ => ?_
    refine (section_attempted.mapError fun _ _ _ => trivial).mono (fun s hs => hs)
      (fun r s hs => hs.2 rfl) fun _ _ he => he
  | error cause =>
    have hres : Guarded.Section (protocol codec hids) i (ArchiveOnly codec s₀)
        (restoreArchive (archiveBytes codec archived)) (fun _ _ => True) fun _ _ => True := by
      refine .bind ((section_setArchive h).mono (fun _ hs => hs) (fun _ _ _ => trivial)
        fun _ _ _ => trivial) fun _ => ?_
      exact section_attempted
    refine .bind (Q := fun _ _ => True) ?_ fun _ => .fail fun _ _ => trivial
    refine mono (hres.attempt (fun _ _ hs => hs) fun _ _ hs => hs)
      (fun s hs => hs.1) (fun _ _ hs => hs) fun _ _ he => he

end

lemma section_openArchive (har : s₀.archive = .missing ∧ archived = [] ∨
      s₀.archive = .regular (archiveBytes codec archived))
    (h : Consistent codec calls (withArchive codec s₀ archived)) :
    Guarded.Section (protocol codec hids) i (fun s => s = s₀) manager.openArchive
      (Returns (withArchive codec s₀ archived) (.regular (archiveBytes codec archived)))
      fun _ _ => True := by
  refine mapError (E := fun _ _ => True) ?_ fun _ _ _ => trivial
  rcases har with ⟨hmis, rfl⟩ | hreg
  · refine section_systemCall (fun s _ hs => ?_) (fun s r _ hs hr => ?_) (fun _ _ _ _ => trivial)
      (fun _ _ _ => trivial) fun _ _ _ => trivial
    · subst hs
      simp only [hmis]
      exact ⟨h, .of_committed_eq rfl⟩
    · subst hs
      simp only [hmis] at hr ⊢
      exact ⟨rfl, (Except.ok.inj hr).symm⟩
  · have heq : withArchive codec s₀ archived = s₀ := by rw [withArchive, ← hreg]
    refine section_systemCall (fun s hI hs => ?_) (fun s r _ hs hr => ?_) (fun _ _ _ _ => trivial)
      (fun _ _ _ => trivial) fun _ _ _ => trivial
    · subst hs
      simp only [hreg]
      exact ⟨hI, .of_committed_eq rfl⟩
    · subst hs
      simp only [hreg] at hr ⊢
      exact ⟨heq.symm, (Except.ok.inj hr).symm⟩

lemma section_archiveDrained (hrec : Recorded calls s₀.committed)
    (hho : Holds codec s₀ archived live) (hcov : Covers archived live s₀.committed)
    (hcov' : Covers (archived ++ drained) live s₀.committed) :
    Guarded.Section (protocol codec hids) i (fun s => s = s₀) (manager.archiveDrained codec drained)
      (fun _ s => Holds codec s (archived ++ drained) live ∧ s.committed = s₀.committed)
      fun _ _ => True := by
  have hcon := consistent_withArchive hrec hho.live hcov
  have hcon' := consistent_withArchive hrec hho.live hcov'
  unfold archiveDrained
  split_ifs with hem
  · rw [List.isEmpty_iff.mp hem, append_nil]
    exact .pure fun s hs => by rw [hs]; exact ⟨hho, rfl⟩
  refine .bind_of_eq (section_openArchive hho.archive hcon) ?_
  refine .bind (section_attempted.mapError fun _ _ _ => trivial) fun _ => ?_
  refine .bind (section_attempted.mapError fun _ _ _ => trivial) fun _ => ?_
  rw [validate_archiveBytes]
  refine .bind_of_eq (.pure fun s hs => ⟨hs, rfl⟩) ?_
  refine .bind (section_attempted.mapError fun _ _ _ => trivial) fun _ => ?_
  rw [archiveText_archiveBytes, ← archiveBytes_append]
  refine .bind (Q := fun wr s => ArchiveOnly codec s₀ s ∧
    (wr = .ok () → s = withArchive codec s₀ (archived ++ drained))) ?_ fun wr => ?_
  · have hset : Guarded.Section (protocol codec hids) i (fun s => s = withArchive codec s₀ archived)
        (setArchive (archiveBytes codec (archived ++ drained)))
        (fun _ s => s = withArchive codec s₀ (archived ++ drained))
        fun _ => ArchiveOnly codec s₀ :=
      (section_setArchive hcon').mono (fun s hs => ⟨archived, hs⟩) (fun _ _ hs => hs)
        fun _ _ hs => hs
    refine hset.attempt (fun _ s hs => ⟨⟨_, hs⟩, fun _ => hs⟩) fun e s hs => ⟨hs, fun h => ?_⟩
    cases h
  · refine (section_finishAppend hcon wr).mono (fun s hs => hs) (fun _ s hs => ?_) fun _ _ he => he
    rw [hs]
    exact ⟨⟨hho.live, .inr rfl⟩, rfl⟩

def Loaded (live : List Transaction) (s₀ : HistoryFiles)
    (loaded : Except HistoryError (List Transaction)) (s : HistoryFiles) : Prop :=
  (loaded = .ok live ∨ ∃ e, loaded = .error e ∧ e.IsSystem) ∧ s = s₀

lemma section_startFrom (loaded : Except HistoryError (List Transaction)) :
    Guarded.Section (protocol codec hids) i (Loaded live s₀ loaded) (manager.startFrom loaded)
      (Returns s₀ live) fun _ _ => True := by
  refine section_of_forall fun s _ hs => ?_
  obtain ⟨rfl | ⟨e, rfl, error, her⟩, rfl⟩ := hs
  · exact .pure fun s' hs' => ⟨hs', rfl⟩
  · simp only [startFrom, her]
    exact .fail fun _ _ => trivial

lemma section_save {t : Transaction} (hca : calls i = .add t) {hist : List Transaction}
    {s₁ : HistoryFiles} (h : Consistent codec calls { s₁ with
        live := .regular (liveBytes codec hist)
        committed := s₁.committed ++ [t] }) :
    Guarded.Section (protocol codec hids) i (fun s => s = s₁) (save codec hist t)
      (fun _ s => t ∈ s.committed) fun _ _ => True := by
  refine mapError (E := fun _ _ => True) ?_ fun _ _ _ => trivial
  refine section_systemCall (fun s _ hs => ?_) (fun s r _ hs hr => ?_) (fun _ _ _ _ => trivial)
    (fun _ _ _ => trivial) fun _ _ _ => trivial
  · subst hs
    refine ⟨h, prefix_append _ _, fun t' ht' => ?_⟩
    rcases mem_append.mp ht' with ht' | ht'
    · exact .inl ht'
    · rw [mem_singleton.mp ht']
      exact .inr hca
  · exact mem_append_right _ (mem_singleton_self t)

/-- **A transaction is added once, and the invariant holds before and after every system call.** -/
lemma section_addTransactionLocked {t : Transaction} (hca : calls i = .add t) :
    Guarded.Section (protocol codec hids) i (fun s => t ∉ s.committed)
      (manager.addTransactionLocked codec t) (fun _ s => t ∈ s.committed) fun _ _ => True := by
  refine section_of_forall fun s₀ hI hnew => ?_
  obtain ⟨hrec, archived, live, hho, hcov⟩ := hI
  refine .bind (Q := Loaded live s₀) ?_ fun loaded => ?_
  · refine (section_loadLocked hho.live).attempt (fun r s hr => ⟨.inl ?_, hr.1⟩)
      fun e s he => ⟨.inr ⟨e, rfl, he.2⟩, he.1⟩
    rw [hr.2]
  refine .bind_of_eq (section_startFrom loaded) ?_
  have hmax : 1 ≤ maxHistoryTransactions := by decide
  obtain ⟨k, hk⟩ : ∃ k, k = live.length + 1 - maxHistoryTransactions := ⟨_, rfl⟩
  have hle : k ≤ live.length := by omega
  dsimp only
  rw [length_append, length_singleton, ← hk, take_append_of_le_length hle,
    drop_append_of_le_length hle]
  refine .bind (section_archiveDrained hrec hho hcov (hcov.retire hrec.nodup hle)) fun _ => ?_
  refine section_of_forall fun s₁ _ hs₁ => ?_
  refine section_save hca ?_
  obtain ⟨hho₁, hcom⟩ := hs₁
  refine ⟨?_, archived ++ live.take k, live.drop k ++ [t], ⟨.inr rfl, hho₁.archive⟩, ?_⟩
  · simp only [hcom]
    exact hrec.concat hca hnew
  · simp only [hcom]
    exact hcov.commit hrec.nodup t hk

/-! ### The lock -/

variable [DecidableEq ι] {P : HistoryFiles → Prop} {E : HistoryError → Prop}

omit [DecidableEq ι] in
lemma triple_outside (hP : ∀ s s', OtherChange calls i s s' → P s → P s')
    (hsys : ∀ e, e.IsSystem → E e) (text : Text) :
    Guarded.Outer (protocol codec hids) i P (outside text) (fun _ => P) fun e _ => E e := by
  refine Guarded.triple_outside hP (fun _ _ _ _ hs => hs) fun call e s he _ => ?_
  cases call with
  | works => cases he
  | _ error =>
    cases he
    exact hsys _ ⟨error, rfl⟩

lemma of_unlocked_eq_ok {res : Except HistoryError α} {call : SystemCall} {r : α}
    (h : unlocked res call = .ok r) : res = .ok r := by
  cases call with
  | works => exact h
  | _ error => cases res <;> cases h

lemma of_unlocked_eq_error {res : Except HistoryError α} {call : SystemCall}
    {e : HistoryError} (h : unlocked res call = .error e) :
    e.IsSystem ∨ ∃ contexts e', res = .error e' ∧ e = ⟨contexts, e'.cause⟩ := by
  cases call with
  | works => exact .inr ⟨e.contexts, e, h, rfl⟩
  | _ error =>
    cases res with
    | ok r =>
      cases h
      exact .inl ⟨error, rfl⟩
    | error e' =>
      cases h
      exact .inr ⟨_, e', rfl, rfl⟩

lemma triple_withHistoryLock {op : HistoryM ι HistoryError α} {Q : α → HistoryFiles → Prop}
    (hP : ∀ s s', OtherChange calls i s s' → P s → P s') (hsys : ∀ e, e.IsSystem → E e)
    (hcon : ∀ contexts e, E e → E ⟨contexts, e.cause⟩)
    (hop : Guarded.Section (protocol codec hids) i P op Q fun e _ => E e) :
    Guarded.Outer (protocol codec hids) i P (manager.withHistoryLock i op) Q fun e _ => E e := by
  refine .bind (triple_outside hP hsys _) fun _ => ?_
  refine .bind (triple_outside hP hsys _) fun _ => ?_
  refine triple_locked hP hop (fun x call r s hr hok _ => ?_) fun x call e s he _ her => ?_
  · exact hok r (of_unlocked_eq_ok hr)
  · rcases of_unlocked_eq_error he with he | ⟨contexts, e', rfl, rfl⟩
    · exact hsys e he
    · exact hcon contexts e' (her e' rfl)

lemma triple_addTransaction {t : Transaction} (hca : calls i = .add t) :
    Guarded.Outer (protocol codec hids) i (fun s => t ∉ s.committed)
      (manager.addTransaction codec i t) (fun _ s => t ∈ s.committed) fun _ _ => True := by
  refine .bind (triple_withHistoryLock (fun s s' h hs hs' => hs (h.kept t hca hs'))
    (fun _ _ => trivial) (fun _ _ _ => trivial) (section_addTransactionLocked hca)) fun _ => ?_
  exact .pure fun m hm => hm

lemma triple_load (pre : List Transaction) :
    Guarded.Outer (protocol codec hids) i (fun s => pre <+: s.committed) (manager.load codec i)
      (fun r s => ∃ hist, r = .loaded hist ∧ pre <+: hist ∧ hist <+: s.committed)
      fun e _ => e.IsSystem := by
  have hld : Guarded.Section (protocol codec hids) i (fun s => pre <+: s.committed)
      (manager.loadUnlocked codec)
      (fun hist s => pre <+: hist ∧ hist <+: s.committed) fun e _ => e.IsSystem := by
    refine section_of_forall fun s hI hs => ?_
    refine (section_loadUnlocked hI).mono (fun _ h => h) (fun hist s' h => ?_) fun _ _ h => h.2
    rw [h.1, h.2]
    exact ⟨hs, prefix_refl _⟩
  refine .bind (triple_withHistoryLock (fun s s' h hs => hs.trans h.grows) (fun _ he => he)
    (fun _ _ he => he) hld) fun hist => ?_
  exact .pure fun m hm => ⟨hm.invariant, hist, rfl, hm.data⟩

end Sections

/-! ### Runs -/

section Runs

variable {ι : Type} [DecidableEq ι] (manager : HistoryManager) (codec : HistoryCodec)
  (calls : ι → Call)

/-- What the process `i` does. -/
def program (i : ι) : HistoryM ι HistoryError Reply :=
  match calls i with
  | .add transaction => manager.addTransaction codec i transaction
  | .load => manager.load codec i

/-- The states of all processes, and the files with their lock. -/
abbrev HistoryConfig (ι : Type) : Type :=
  Machine.Config ι (Option (HistoryM ι HistoryError Reply)) (Guarded ι HistoryFiles)

/-- The processes, which take turns in any order and may end at any point. -/
abbrev processes (ι : Type) [DecidableEq ι] :
    Machine ι (Option (HistoryM ι HistoryError Reply)) (Guarded ι HistoryFiles)
      (Option SystemCall) :=
  Thread.machine ι Guarded.release

def start : HistoryConfig ι :=
  ⟨fun i => some (program manager codec calls i), ⟨none, ⟨.missing, .missing, [], []⟩⟩⟩

/-- What is known of a process that has ended; a process that loads had not begun when the given
transactions were there. -/
def Ended (before : ι → List Transaction) (i : ι) (reply : Reply) (files : HistoryFiles) : Prop :=
  match calls i with
  | .add t => t ∈ files.committed
  | .load => ∃ history, reply = .loaded history ∧ before i <+: history ∧
      history <+: files.committed

def Failed (i : ι) (error : HistoryError) : Prop :=
  match calls i with
  | .add _ => True
  | .load => error.IsSystem

variable {calls}

omit [DecidableEq ι] in
lemma Ended.mono {pre : ι → List Transaction} {i : ι} {reply : Reply}
    {fs fs' : HistoryFiles} (hot : OtherChange calls i fs fs')
    (h : Ended calls pre i reply fs) : Ended calls pre i reply fs' := by
  unfold Ended at *
  cases hca : calls i with
  | add t =>
    simp only [hca] at h ⊢
    exact hot.grows.subset h
  | load =>
    simp only [hca] at h ⊢
    obtain ⟨hist, hrp, hbe, haf⟩ := h
    exact ⟨hist, hrp, hbe, haf.trans hot.grows⟩

variable (hids : DistinctIds calls)

def Ensures (before : ι → List Transaction) (c : HistoryConfig ι) : Prop :=
  ∀ i t, c.locals i = some t →
    t.Sat (Guarded.Rely (protocol codec hids) i) (Guarded.Guarantee (protocol codec hids) i)
      (fun r => Guarded.Without (protocol codec hids) (Ended calls before i r))
      (fun e => Guarded.Without (protocol codec hids) fun _ => Failed calls i e) c.store

lemma ensures_of_exec {pre : ι → List Transaction} {c c' : HistoryConfig ι}
    {inps : List (ι × Option SystemCall)} (hrun : (processes ι).exec c inps = some c')
    (hinv : Consistent codec calls c.store.data) (h : Ensures codec hids pre c) :
    Consistent codec calls c'.store.data ∧ Ensures codec hids pre c' ∧
      c.store.data.committed <+: c'.store.data.committed := by
  have hpre := preserves (p := protocol codec hids) (A := SystemCall)
    (Q := Ended calls pre) (E := fun i e _ => Failed calls i e)
    (fun _ _ _ _ hot h => h.mono hot) fun _ _ _ _ _ h => h
  refine Machine.exec_induction (P := fun c' => Consistent codec calls c'.store.data ∧
    Ensures codec hids pre c' ∧ c.store.data.committed <+: c'.store.data.committed)
    (fun c₁ a c₂ hc₁ hs => ?_) hrun ⟨hinv, h, prefix_refl _⟩
  obtain ⟨hcon, hens, hgw⟩ := hc₁
  obtain ⟨hlcs, hgu⟩ := hpre.step hens hs
  exact ⟨hgu.invariant hcon, hlcs, hgw.trans hgu.own.grows⟩

lemma consistent_start : Consistent codec calls (start manager codec calls).store.data := by
  refine ⟨⟨nodup_nil, fun t ht => ?_⟩, [], [], ⟨.inl ⟨rfl, rfl⟩, .inl ⟨rfl, rfl⟩⟩,
    ⟨by decide, [], 0, le_refl 0, rfl, rfl⟩⟩
  cases ht

lemma sat_program {pre : ι → List Transaction} {i : ι} {m : Guarded ι HistoryFiles}
    (hinv : Consistent codec calls m.data) (hbe : pre i <+: m.data.committed)
    (hnew : ∀ t, calls i = .add t → t ∉ m.data.committed) :
    (program manager codec calls i).Sat (Guarded.Rely (protocol codec hids) i)
      (Guarded.Guarantee (protocol codec hids) i)
      (fun r => Guarded.Without (protocol codec hids) (Ended calls pre i r))
      (fun e => Guarded.Without (protocol codec hids) fun _ => Failed calls i e) m := by
  unfold program
  cases hca : calls i with
  | add t =>
    refine (triple_addTransaction hca).mono (fun _ h => h) (fun r m' hm' => ⟨hm'.invariant, ?_⟩)
      (fun e m' hm' => ⟨hm'.invariant, ?_⟩) m ⟨hinv, hnew t hca⟩
    · simp only [Ended, hca]
      exact hm'.data
    · simp only [Failed, hca]
  | load =>
    refine (triple_load (pre i)).mono (fun _ h => h) (fun r m' hm' => ⟨hm'.invariant, ?_⟩)
      (fun e m' hm' => ⟨hm'.invariant, ?_⟩) m ⟨hinv, hbe⟩
    · simp only [Ended, hca]
      exact hm'.data
    · simp only [Failed, hca]
      exact hm'.data

lemma ensures_start : Ensures codec hids (fun _ => []) (start manager codec calls) := by
  intro i t ht
  obtain rfl := some.inj ht
  refine sat_program manager codec hids (consistent_start manager codec) nil_prefix ?_
  intro t _ ht
  cases ht

lemma ensures_update {pre : ι → List Transaction} {c : HistoryConfig ι}
    (hinv : Consistent codec calls c.store.data) (h : Ensures codec hids pre c) {i : ι}
    (hca : calls i = .load) (hbeg : c.locals i = some (program manager codec calls i)) :
    Ensures codec hids (update pre i c.store.data.committed) c := by
  intro k t ht
  by_cases hk : k = i
  · subst hk
    rw [hbeg] at ht
    obtain rfl := some.inj ht
    refine sat_program manager codec hids hinv ?_ fun t ht => ?_
    · rw [update_self]
    · rw [hca] at ht
      cases ht
  · have hend : Ended calls (update pre i c.store.data.committed) k = Ended calls pre k := by
      funext reply fs
      simp only [Ended, update_of_ne hk]
    rw [hend]
    exact h k t ht

variable (calls) in
structure Kept (c c' : HistoryConfig ι) : Prop where
  /-- The live file has at most the maximal number of transactions. -/
  live : ∃ live, (c.store.data.live = .missing ∧ live = [] ∨
    c.store.data.live = .regular (liveBytes codec live)) ∧ live.length ≤ maxHistoryTransactions
  /-- The transactions that were written are different ones, and they are those of calls. -/
  nodup : c.store.data.committed.Nodup
  added : ∀ t ∈ c.store.data.committed, ∃ i, calls i = .add t
  succeeded : ∀ i t reply, calls i = .add t → c.locals i = some (.ret reply) →
    t ∈ c.store.data.committed
  grows : c.store.data.committed <+: c'.store.data.committed
  /-- A process that begins to load in the first state and has ended in the second one. -/
  loaded : ∀ i reply, calls i = .load → c.locals i = some (program manager codec calls i) →
    c'.locals i = some (.ret reply) → ∃ history, reply = .loaded history ∧
      c.store.data.committed <+: history ∧ history <+: c'.store.data.committed
  loadFailed : ∀ i error, calls i = .load → c.locals i = some (.fail error) → error.IsSystem
  /-- A process that begins to load while the lock is free, and whose calls work, has loaded all. -/
  loads : ∀ i, calls i = .load → c.locals i = some (program manager codec calls i) →
    c.store.owner = none → ∃ n c'', (processes ι).exec c (replicate n (i, some .works)) = some c'' ∧
      c''.locals i = some (.ret (.loaded c.store.data.committed))

/-- **In every run, every transaction whose call succeeded is loaded once, in the order in which
they were written, no other transaction is loaded, and the live file stays small.** -/
theorem history_of_runs (hids : DistinctIds calls)
    (inputs inputs' : List (ι × Option SystemCall)) {c c' : HistoryConfig ι}
    (hrun : (processes ι).exec (start manager codec calls) inputs = some c)
    (hrun' : (processes ι).exec c inputs' = some c') : Kept manager codec calls c c' := by
  obtain ⟨hcon, hens, -⟩ := ensures_of_exec codec hids hrun
    (consistent_start manager codec) (ensures_start manager codec hids)
  obtain ⟨-, -, hgw⟩ := ensures_of_exec codec hids hrun' hcon hens
  obtain ⟨hrec, archived, live, hho, hcov⟩ := id hcon
  refine ⟨⟨live, hho.live, hcov.length_le⟩, hrec.nodup, hrec.added, ?_, hgw, ?_, ?_, ?_⟩
  · intro i t reply hca hend
    have hsat := (hens i _ hend).data
    simp only [Ended, hca] at hsat
    exact hsat
  · intro i reply hca hbeg hend
    have hld : Ensures codec hids (update (fun _ => []) i c.store.data.committed) c :=
      ensures_update manager codec hids hcon hens hca hbeg
    obtain ⟨-, hens', -⟩ := ensures_of_exec codec hids hrun' hcon hld
    have hsat := (hens' i _ hend).data
    simp only [Ended, hca, update_self] at hsat
    exact hsat
  · intro i error hca hend
    have hsat := (hens i _ hend).data
    simp only [Failed, hca] at hsat
    exact hsat
  · intro i hload hbegin hfree
    rw [program, hload] at hbegin
    have hruns : Thread.Runs .works (manager.load codec i) _ (.ok (.loaded _)) _ :=
      runs_load hids hcon hfree
    obtain ⟨n, c'', hexec, hend, -⟩ := hruns.exec hbegin
    exact ⟨n, c'', hexec, hend⟩

end Runs

/-! ### A codec -/

section Codec

def PackageChange.fields (c : PackageChange) : Text × Option Text × Option Text × Text :=
  (c.name, c.oldVersion, c.newVersion, c.source)

def Transaction.fields (t : Transaction) :
    Text × ℤ × ℕ × List (Text × Option Text × Option Text × Text) × Bool :=
  (t.id, t.timestamp, t.transactionType.ctorIdx, t.changes.map PackageChange.fields, t.success)

lemma exists_number : ∃ number : Transaction → ℕ, Injective number := by
  have hch : Countable Char := LeftInverse.injective Char.ofNat_toNat |>.countable
  have hcg : Injective PackageChange.fields := by
    rintro ⟨⟩ ⟨⟩ h
    cases h
    rfl
  have hty : Injective TransactionType.ctorIdx := by
    intro a b h
    cases a <;> cases b <;> first | rfl | cases h
  have hfl : Injective Transaction.fields := by
    rintro ⟨⟩ ⟨⟩ h
    simp only [Transaction.fields, Prod.mk.injEq] at h
    obtain ⟨rfl, rfl, hty', hcha, rfl⟩ := h
    rw [hty hty', map_injective_iff.mpr hcg hcha]
  exact hfl.countable.exists_injective_nat'

/-- A number for each transaction. -/
noncomputable def number : Transaction → ℕ := exists_number.choose

lemma number_injective : Injective number := exists_number.choose_spec

/-- Numbers on lines. -/
noncomputable def renderNumbers (records : List Transaction) : Text :=
  records.flatMap fun t => decimal (number t) ++ ['\n']

lemma renderNumbers_injective : Injective renderNumbers := by
  intro recs recs' h
  induction recs generalizing recs' with
  | nil =>
    cases recs' with
    | nil => rfl
    | cons t recs' => simp [renderNumbers] at h
  | cons t recs ih =>
    cases recs' with
    | nil => simp [renderNumbers] at h
    | cons t' recs' =>
      have hnew : ∀ t : Transaction, '\n' ∉ decimal (number t) := fun t hmem => by
        have hdig := isDigit_of_mem_decimal hmem
        revert hdig
        decide
      simp only [renderNumbers, flatMap_cons, append_assoc] at h
      obtain ⟨hh, hta⟩ := append_cons_inj (hnew t) (hnew t') h
      rw [number_injective (decimal_injective hh), ih hta]

open Classical in
/-- What a text stands for, if it is the text of something. -/
noncomputable def decodeWith {α β : Type} (render : α → β) (error : Text) (b : β) : Except Text α :=
  if h : ∃ a, render a = b then .ok h.choose else .error error

lemma decodeWith_render {α β : Type} {render : α → β} (hren : Injective render)
    (error : Text) (a : α) : decodeWith render error (render a) = .ok a := by
  have h : ∃ a', render a' = render a := ⟨a, rfl⟩
  rw [decodeWith, dif_pos h, hren h.choose_spec]

def streamOf : Except Text (List Transaction) → List (Except Text Transaction)
  | .ok records => records.map .ok
  | .error error => [.error error]

/-- A codec. -/
noncomputable def lineCodec : HistoryCodec where
  renderHistory := renderNumbers
  parseHistory := decodeWith (fun records => renderNumbers records ++ ['\n']) []
  renderRecord t := decimal (number t)
  parseRecords bytes :=
    streamOf (decodeWith (fun records => utf8 (renderNumbers records)) [] bytes)
  parseHistory_render history :=
    decodeWith_render (fun _ _ h => renderNumbers_injective (append_cancel_right h)) [] history
  parseRecords_render records := by
    have hinjective : Injective fun records => utf8 (renderNumbers records) := by
      intro a b h
      have hdecode := congrArg utf8Decode h
      simp only [utf8Decode_utf8, some.injEq] at hdecode
      exact renderNumbers_injective hdecode
    exact congrArg streamOf (decodeWith_render hinjective [] records)

end Codec

def addAndLoad : Bool → Call
  | false => .add ⟨"id", 0, .install, [], true⟩
  | true => .load

/-- A transaction is added; then a process loads the history, and has it. -/
theorem history_of_added_transaction : ∃ (n : ℕ) (c c' : HistoryConfig Bool),
      (processes Bool).exec (start ⟨[], [], [], []⟩ lineCodec addAndLoad)
        (List.replicate 7 (false, some .works)) = some c ∧
      c.locals false = some (.ret .added) ∧
      (processes Bool).exec c (List.replicate n (true, some .works)) = some c' ∧
      c'.locals true = some (.ret (.loaded [⟨"id", 0, .install, [], true⟩])) ∧
      Kept ⟨[], [], [], []⟩ lineCodec addAndLoad c c' := by
  have hids : DistinctIds addAndLoad := by
    intro i k t t' hi hk _
    cases i with
    | false =>
      cases k with
      | false => rfl
      | true => cases hk
    | true => cases hi
  obtain ⟨c, hc⟩ : ∃ c, (processes Bool).exec (start ⟨[], [], [], []⟩ lineCodec addAndLoad)
      (List.replicate 7 (false, some .works)) = some c := ⟨_, rfl⟩
  obtain ⟨n, c', hload, hend⟩ := (history_of_runs ⟨[], [], [], []⟩ lineCodec hids _ [] hc rfl).loads
    true rfl (by cases hc; rfl) (by cases hc; rfl)
  refine ⟨n, c, c', hc, by cases hc; rfl, hload, ?_, history_of_runs _ _ hids _ _ hc hload⟩
  rw [hend]
  cases hc
  rfl

end Omg.History
