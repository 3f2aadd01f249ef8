import Omg.Text.Basic

/-!
# Records in a stream

A reader takes one record after the other from a stream, up to a mark or to the end of the stream.
What stands behind a mark is never read. What stands behind the end of a stream without a mark is
read by whoever joins another stream to it.
-/

namespace Omg.Codec

structure Stream where
  data : Bytes
  fault : Option Text

/-- The stream `t` begins where `s` ends. -/
def Stream.extend (s t : Stream) : Stream := ⟨s.data ++ t.data, t.fault⟩

inductive NextRecord (E : Type)
  | record (e : E) (rest : Stream)
  | marker
  | eof
  | fault (message : Text)

namespace NextRecord

variable {E F : Type} {g : E → F} {next : NextRecord E}

def map (g : E → F) : NextRecord E → NextRecord F
  | record e rest => record (g e) rest
  | marker => marker
  | eof => eof
  | fault message => fault message

lemma map_eq_record {e' : F} {rest : Stream} :
    next.map g = .record e' rest ↔ ∃ e, next = .record e rest ∧ g e = e' := by
  cases next <;> simp [map, and_comm]

lemma map_eq_marker : next.map g = .marker ↔ next = .marker := by
  cases next <;> simp [map]

lemma map_eq_eof : next.map g = .eof ↔ next = .eof := by
  cases next <;> simp [map]

end NextRecord

inductive Ending
  | marker
  | eof
  | fault (message : Text)
deriving DecidableEq

structure RecordFormat (E : Type) where
  next : Stream → NextRecord E
  next_lt : ∀ {s e rest}, next s = .record e rest → rest.data.length < s.data.length
  next_fault : ∀ {s e rest}, next s = .record e rest → rest.fault = s.fault
  next_extend : ∀ {s e rest}, next s = .record e rest → ∀ t,
    next (s.extend t) = .record e (rest.extend t)
  marker_extend : ∀ {s}, next s = .marker → ∀ t, next (s.extend t) = .marker
  of_eof : ∀ {s}, next s = .eof → s = ⟨[], none⟩

namespace RecordFormat

variable {E : Type} (format : RecordFormat E)

def readWithin : ℕ → Stream → List E × Ending
  | 0, _ => ([], .fault [])
  | n + 1, s =>
    match format.next s with
    | .record e rest => (e :: (readWithin n rest).1, (readWithin n rest).2)
    | .marker => ([], .marker)
    | .eof => ([], .eof)
    | .fault message => ([], .fault message)

def read (s : Stream) : List E × Ending := format.readWithin (s.data.length + 1) s

variable {format} {s t rest : Stream} {e : E}

lemma readWithin_eq {n m : ℕ} (hn : s.data.length < n) (hm : s.data.length < m) :
    format.readWithin n s = format.readWithin m s := by
  induction n generalizing m s with
  | zero => omega
  | succ n ih =>
    cases m with
    | zero => omega
    | succ m =>
      unfold readWithin
      cases hnext : format.next s with
      | record e rest =>
        have hlt := format.next_lt hnext
        simp only [ih (m := m) (s := rest) (by omega) (by omega)]
      | fault msg => rfl
      | _ => rfl

lemma read_of_record (h : format.next s = .record e rest) :
    format.read s = (e :: (format.read rest).1, (format.read rest).2) := by
  have hlt := format.next_lt h
  have hr : format.readWithin s.data.length rest = format.read rest :=
    readWithin_eq hlt (Nat.lt_succ_self _)
  rw [read, readWithin, h]
  simp only [hr]

lemma read_of_marker (h : format.next s = .marker) : format.read s = ([], .marker) := by
  rw [read, readWithin, h]

lemma read_of_eof (h : format.next s = .eof) : format.read s = ([], .eof) := by
  rw [read, readWithin, h]

lemma read_of_fault {msg : Text} (h : format.next s = .fault msg) :
    format.read s = ([], .fault msg) := by
  rw [read, readWithin, h]

/-- What is joined to a stream is hidden by a mark, and read behind an end. -/
lemma read_extend (s t : Stream) :
    ((format.read s).2 = .marker → format.read (s.extend t) = format.read s) ∧
      ((format.read s).2 = .eof → s.fault = none ∧
        format.read (s.extend t) =
          ((format.read s).1 ++ (format.read t).1, (format.read t).2)) := by
  induction hlen : s.data.length using Nat.strong_induction_on generalizing s with
  | _ n ih =>
    cases hnext : format.next s with
    | record e rest =>
      obtain ⟨hmk, heof⟩ := ih _ (hlen ▸ format.next_lt hnext) rest rfl
      rw [read_of_record hnext, read_of_record (format.next_extend hnext t),
        ← format.next_fault hnext]
      refine ⟨fun h => by rw [hmk h], fun h => ⟨(heof h).1, ?_⟩⟩
      rw [(heof h).2]
      rfl
    | marker => simp [read_of_marker hnext, read_of_marker (format.marker_extend hnext t)]
    | eof =>
      obtain rfl := format.of_eof hnext
      rw [read_of_eof hnext]
      exact ⟨nofun, fun _ => ⟨rfl, rfl⟩⟩
    | fault msg => simp [read_of_fault hnext]

def map {F : Type} (format : RecordFormat E) (g : E → F) : RecordFormat F where
  next s := (format.next s).map g
  next_lt h := by
    obtain ⟨e, hnext, -⟩ := NextRecord.map_eq_record.mp h
    exact format.next_lt hnext
  next_fault h := by
    obtain ⟨e, hnext, -⟩ := NextRecord.map_eq_record.mp h
    exact format.next_fault hnext
  next_extend h t := by
    obtain ⟨e, hnext, rfl⟩ := NextRecord.map_eq_record.mp h
    rw [format.next_extend hnext t]
    rfl
  marker_extend h t := by
    rw [format.marker_extend (NextRecord.map_eq_marker.mp h) t]
    rfl
  of_eof h := format.of_eof (NextRecord.map_eq_eof.mp h)

end RecordFormat

end Omg.Codec
