import Omg.Security.AuditTail

/-!
# Appended entries continue the audit chain

Any number of loggers append to one log, one at a time. Every call that completes leaves a log that
is verified as valid, keeps the bytes that were there, and leaves its own entry where the next call
finds its hash, whatever errors and crashes came before: a torn line at the end of the log has no
hash, so nothing is ever appended behind it.

Source: `src/core/security/audit.rs`, lines 354-440, 504-567 and 846-920.
-/

namespace Omg.Security

open Control Text List Steps Option AuditFields

variable {json : JsonValues}

/-! ### The logs that calls leave behind -/

section Invariant

variable (reader : EntryReader json) (sha256 : Sha256) (paths : AuditPaths)

inductive LogInv : LogFile → Prop
  | missing : LogInv .missing
  | sound {content : Bytes} {entries : List (AuditEntry json)}
      (h : HasEntries reader sha256 content entries) (hvisible : TailVisible content) :
      LogInv (.regular content)
  | torn {content torn : Bytes} {entries : List (AuditEntry json)} {e : StoredEntry json}
      (h : HasEntries reader sha256 content entries) (hc : EndsLine content) (he : e.IsWritten)
      (hsize : e.line.length ≤ maxAuditEntryBytes) (htorn : torn <+: e.line) (hne : torn ≠ e.line)
      (hnil : torn ≠ []) : LogInv (.regular (content ++ torn))

def WorldInv (w : AuditWorld) : Prop := LogInv reader sha256 w.log

/-- The hash is what `get_last_hash` finds in a log. -/
def FindsHash (file : LogFile) (hash : MemoryText) : Prop :=
  file = .missing ∧ hash = genesisHash ∨
    ∃ content, file = .regular content ∧ lastHashOf reader paths content = .ok hash

structure Appendable (file : LogFile) (hash : MemoryText) (content : Bytes)
    (entries : List (AuditEntry json)) : Prop where
  found : file = .missing ∧ content = [] ∨ file = .regular content
  holds : HasEntries reader sha256 content entries
  tip : hash.1 = tipHash sha256 entries
  window : content = [] ∨ LineInWindow content

variable {reader sha256 paths}

lemma LineInWindow.tailVisible {content : Bytes} (h : LineInWindow content) :
    TailVisible content := .inr h.visible

lemma exists_appendable {file : LogFile} {hash : MemoryText} (hinv : LogInv reader sha256 file)
    (hfin : FindsHash reader paths file hash) :
    ∃ content entries, Appendable reader sha256 file hash content entries := by
  rcases hfin with ⟨rfl, rfl⟩ | ⟨content, rfl, hok⟩
  · exact ⟨[], [], .inl ⟨rfl, rfl⟩, hasEntries_nil, rfl, .inl rfl⟩
  · cases hinv with
    | sound h hvisible =>
      refine ⟨content, _, .inr rfl, h, lastHashOf_of_entries h hvisible hok, ?_⟩
      by_cases hnil : content = []
      · exact .inl hnil
      · exact .inr ((lineInWindow_of_lastHashOf hnil hok).resolve_right fun hnot =>
          hnot.1 hvisible)
    | torn _ hc he hs ht hne hnil => exact absurd hok (lastHashOf_torn hc he hs ht hne hnil _)

variable {content : Bytes} {entries : List (AuditEntry json)} {file : LogFile} {hash : MemoryText}

def finishedContent (content : Bytes) : Bytes := content ++ missingNewline content.getLast?

lemma finishedContent_of_endsLine (h : EndsLine content) : finishedContent content = content := by
  rw [finishedContent, missingNewline, if_pos (endsLine_iff_getLast?.mp h), append_nil]

lemma finishedContent_of_not_endsLine (h : ¬EndsLine content) :
    finishedContent content = content ++ [newline] := by
  rw [finishedContent, missingNewline, if_neg (mt endsLine_iff_getLast?.mpr h)]

lemma endsLine_finishedContent (content : Bytes) : EndsLine (finishedContent content) := by
  by_cases h : EndsLine content
  · rwa [finishedContent_of_endsLine h]
  · rw [finishedContent_of_not_endsLine h]
    exact .inr ⟨content, rfl⟩

lemma HasEntries.finishedContent (h : HasEntries reader sha256 content entries) :
    HasEntries reader sha256 (finishedContent content) entries := by
  by_cases hc : EndsLine content
  · rwa [finishedContent_of_endsLine hc]
  · rw [finishedContent_of_not_endsLine hc]
    exact h.newline hc

section

variable (h : Appendable reader sha256 file hash content entries)

include h

lemma Appendable.tailVisible : TailVisible content := h.window.imp_right fun hwi => hwi.visible

lemma Appendable.tailVisible_finishedContent : TailVisible (finishedContent content) := by
  by_cases hc : EndsLine content
  · rw [finishedContent_of_endsLine hc]
    exact h.tailVisible
  · rw [finishedContent_of_not_endsLine hc]
    exact h.holds.tailVisible_newline (h.window.resolve_left fun hnil => hc (.inl hnil))

end

variable {call : LogCall}

variable (call) in
lemma HasEntries.append_entry (h : HasEntries reader sha256 content entries)
    (hc : EndsLine content) (hha : hash.1 = tipHash sha256 entries) {rest : Bytes}
    (hrest : rest = [] ∨ rest = [Text.newline]) :
    HasEntries reader sha256 (content ++ (call.entry json sha256 hash).line ++ rest)
        (entries ++ [(call.entry json sha256 hash).toAuditEntry]) ∧
      LineInWindow (content ++ (call.entry json sha256 hash).line ++ rest) := by
  have he := call.isWritten_entry json sha256 hash
  refine ⟨h.append hc he (call.verify_entry hash) hha hrest, ?_⟩
  refine lineInWindow_append hc (line_ne_nil _) (fun b hb => not_isLineEnd_of_mem_line he hb) hrest
    (call.length_line_le ?_)
  rw [hha]
  exact byteLen_tipHash_le ..

lemma logInv_written (h : HasEntries reader sha256 content entries)
    (hvisible : TailVisible content) (hc : EndsLine content)
    (hha : hash.1 = tipHash sha256 entries) {wr : Bytes}
    (hwr : wr <+: (call.entry json sha256 hash).line ++ [Text.newline]) :
    LogInv reader sha256 (.regular (content ++ wr)) := by
  rcases prefix_concat_iff.mp hwr with rfl | hpx
  · obtain ⟨hes, hwi⟩ := h.append_entry call hc hha (.inr rfl)
    rw [append_assoc] at hes hwi
    exact .sound hes hwi.tailVisible
  by_cases hl : wr = (call.entry json sha256 hash).line
  · obtain ⟨hes, hwi⟩ := h.append_entry call hc hha (.inl rfl)
    rw [append_nil] at hes hwi
    rw [hl]
    exact .sound hes hwi.tailVisible
  by_cases hnil : wr = []
  · rw [hnil, append_nil]
    exact .sound h hvisible
  · refine .torn h hc (call.isWritten_entry json sha256 hash) (call.length_line_le ?_) hpx hl hnil
    rw [hha]
    exact byteLen_tipHash_le ..

end Invariant

/-! ### Rules for the steps -/

section Rules

variable {reader : EntryReader json} {sha256 : Sha256} {paths : AuditPaths} {file : LogFile}

def NotUnlock (paths : AuditPaths) (e : AppendError) (_ : AuditWorld) : Prop :=
  e ≠ unlockFault paths

def LogIs (file : LogFile) (w : AuditWorld) : Prop := w.log = file

/-- From a log as `file`, a success is as `Q` says, and an error does not come from the unlocking.
-/
abbrev LogKept {json : JsonValues} {α : Type} (reader : EntryReader json) (sha256 : Sha256)
    (paths : AuditPaths) (file : LogFile) (x : Steps AuditWorld AppendError α)
    (Q : α → AuditWorld → Prop) : Prop :=
  Satisfies (WorldInv reader sha256) (LogIs file) x Q (NotUnlock paths)

lemma satisfies_openReadFile : LogKept reader sha256 paths file (openReadFile paths)
    fun fd w => LogIs file w ∧
      (file = .missing ∧ fd = none ∨ ∃ c, file = .regular c ∧ fd = some c) := by
  refine .step (fun _ _ _ => nofun) fun w hinv hlog => ?_
  rw [hlog]
  cases file with
  | missing => exact .ok hinv ⟨hlog, .inl ⟨rfl, rfl⟩⟩
  | regular c => exact .ok hinv ⟨hlog, .inr ⟨c, rfl, rfl⟩⟩
  | special => exact .error hinv nofun

lemma lastHashOf_ne_unlockFault {content : Bytes} :
    lastHashOf reader paths content ≠ .error (unlockFault paths) := by
  have hl : ∀ n line, lineHash reader paths n line ≠ .error (unlockFault paths) := by
    intro n line
    unfold lineHash
    split
    · simp [unlockFault]
    · split
      · simp [unlockFault]
      · split <;> simp [unlockFault]
  rw [lastHashOf, tailHash]
  split_ifs
  · simp
  · simp
  · simp [unlockFault]
  · exact hl _ _

variable (file) in
lemma satisfies_getLastHash : LogKept reader sha256 paths file (getLastHash reader paths)
    fun hash w => LogIs file w ∧ FindsHash reader paths file hash := by
  refine .bind satisfies_openReadFile fun fd => ?_
  cases fd with
  | none =>
    refine .pure fun w _ hw => ⟨hw.1, ?_⟩
    rcases hw.2 with ⟨hmis, -⟩ | ⟨c, -, hfo⟩
    · exact .inl ⟨hmis, rfl⟩
    · cases hfo
  | some content =>
    refine .step (fun _ _ _ => nofun) fun w hinv hw => ?_
    rcases hw.2 with ⟨-, hfo⟩ | ⟨c, hf, hfo⟩
    · cases hfo
    cases hfo
    cases hok : lastHashOf reader paths content with
    | ok hash => exact .ok hinv ⟨hw.1, .inr ⟨content, hf, hok⟩⟩
    | error e => exact .error hinv fun he => lastHashOf_ne_unlockFault (he ▸ hok)

def Rotated (logger : AuditLogger) (file file' : LogFile) : Prop :=
  file' = file ∨ file' = .missing ∧ ∀ c, file = .regular c → logger.maxBytes ≤ c.length

variable (file) in
lemma satisfies_retireLog (maxArchives : ℕ) :
    LogKept reader sha256 paths file (retireLog paths maxArchives) fun _ => LogIs .missing := by
  have hren : ∀ idx, LogKept reader sha256 paths file (renameArchives paths idx)
      fun _ => LogIs file := by
    intro idx
    induction idx with
    | zero => exact .pure fun _ _ h => h
    | succ idx ih =>
      exact .bind (.step (fun _ _ _ => nofun) fun _ hinv hw => .ok hinv hw) fun _ => ih
  cases maxArchives with
  | zero => exact .step (fun _ _ _ => nofun) fun _ _ _ => .ok .missing rfl
  | succ idx =>
    refine .bind (Q := fun _ => LogIs file)
      (.step (fun _ _ _ => nofun) fun _ hinv hw => .ok hinv hw) fun _ => ?_
    refine .bind (hren idx) fun _ => ?_
    exact .step (fun _ _ _ => nofun) fun _ _ _ => .ok .missing rfl

lemma satisfies_inspectLog : LogKept reader sha256 paths file (inspectLog paths)
    fun length w => LogIs file w ∧ ∀ c, file = .regular c → length = some c.length := by
  refine .step (fun _ _ _ => nofun) fun w hinv hlog => ?_
  rw [hlog]
  cases file with
  | missing => exact .ok hinv ⟨hlog, nofun⟩
  | regular c => exact .ok hinv ⟨hlog, fun c' hc' => by cases hc'; rfl⟩
  | special => exact .error hinv nofun

lemma satisfies_rotateIfNeeded (lg : AuditLogger) :
    LogKept reader sha256 paths file (rotateIfNeeded paths lg)
      fun _ w => Rotated lg file w.log := by
  refine .bind satisfies_inspectLog fun length => ?_
  cases length with
  | none => exact .pure fun w _ hw => .inl hw.1
  | some length =>
    by_cases hlen : length < lg.maxBytes
    · simp only [if_pos hlen]
      exact .pure fun w _ hw => .inl hw.1
    · simp only [if_neg hlen]
      refine .of_forall fun w₀ _ hw₀ => ?_
      have hlm : ∀ c, file = .regular c → lg.maxBytes ≤ c.length := by
        intro c hc
        have hso := some.inj (hw₀.2 c hc)
        omega
      refine .bind ((satisfies_retireLog file lg.maxArchives).pre ?_) fun _ => ?_
      · rintro w rfl
        exact hw₀.1
      · exact .assign (fun _ hinv _ => hinv) fun w _ hw => .inr ⟨hw, hlm⟩

lemma satisfies_writeAll {content bs : Bytes}
    (hinv : ∀ wr, wr <+: bs → LogInv reader sha256 (.regular (content ++ wr))) :
    LogKept reader sha256 paths (.regular content) (writeAll paths bs)
      (fun _ => LogIs (.regular (content ++ bs))) := by
  induction bs generalizing content with
  | nil => exact .pure fun w _ hw => by rwa [append_nil]
  | cons b bs ih =>
    have hf : ∀ wr, wr <+: bs → LogInv reader sha256 (.regular (content ++ [b] ++ wr)) := by
      intro wr hwr
      rw [append_assoc]
      exact hinv _ (by simpa using hwr)
    have hrest := ih hf
    rw [append_assoc] at hrest
    refine .bind ?_ fun _ => hrest
    refine .step (fun _ _ _ => nofun) fun w _ hw => ?_
    have hap : w.log.append b = .regular (content ++ [b]) := by
      rw [show w.log = .regular content from hw]
      rfl
    refine .ok ?_ hap
    rw [WorldInv, hap]
    simpa using hf [] (by simp)

variable {hash : MemoryText} {content : Bytes} {entries : List (AuditEntry json)}

section

variable (h : Appendable reader sha256 file hash content entries)

include h

lemma satisfies_openAppendFile :
    LogKept reader sha256 paths file (openAppendFile paths) fun _ => LogIs (.regular content) := by
  refine .step (fun _ _ _ => nofun) fun w hinv hw => ?_
  rcases h.found with ⟨rfl, rfl⟩ | rfl
  · rw [show w.log = .missing from hw]
    exact .ok (LogInv.sound hasEntries_nil (.inl rfl)) rfl
  · rw [show w.log = .regular content from hw]
    exact .ok hinv hw

lemma satisfies_ensureTrailingNewline :
    LogKept reader sha256 paths (.regular content) (ensureTrailingNewline paths)
      (fun _ => LogIs (.regular (finishedContent content))) := by
  have hrd : LogKept reader sha256 paths (.regular content) (readLastByte paths)
      fun last w => LogIs (.regular content) w ∧ last = content.getLast? := by
    refine .step (fun _ _ _ => nofun) fun w hinv hw => .ok hinv ⟨hw, ?_⟩
    rw [show w.log = .regular content from hw]
    rfl
  refine .bind hrd fun last => .of_forall fun w₀ _ hw₀ => ?_
  obtain ⟨hlog, rfl⟩ := hw₀
  refine (satisfies_writeAll fun wr hwr => ?_).pre ?_
  · -- At most one byte is written.
    by_cases hnil : wr = []
    · rw [hnil, append_nil]
      exact .sound h.holds h.tailVisible
    · have hwh : wr = missingNewline content.getLast? := by
        refine hwr.eq_of_length_le ?_
        have hpos := length_pos_of_ne_nil hnil
        unfold missingNewline
        split_ifs
        · exact Nat.zero_le _
        · exact hpos
      rw [hwh]
      exact .sound h.holds.finishedContent h.tailVisible_finishedContent
  · rintro w rfl
    exact hlog

lemma satisfies_appendEntry (call : LogCall) :
    LogKept reader sha256 paths file (appendEntry paths (call.entry json sha256 hash))
      fun _ => LogIs (.regular (finishedContent content ++
        ((call.entry json sha256 hash).line ++ [newline]))) := by
  refine .bind (satisfies_openAppendFile h) fun _ => ?_
  refine .bind (satisfies_ensureTrailingNewline h) fun _ => ?_
  refine .bind (satisfies_writeAll fun wr hwr =>
    logInv_written h.holds.finishedContent h.tailVisible_finishedContent
      (endsLine_finishedContent content) h.tip hwr) fun _ => ?_
  refine .bind (Q := fun _ => LogIs (.regular (finishedContent content ++
    ((call.entry json sha256 hash).line ++ [newline]))))
    (.step (fun _ _ _ => nofun) fun _ hinv hw => .ok hinv hw) fun _ => ?_
  exact .assign (fun _ hinv _ => hinv) fun _ _ hw => hw

end

variable (reader sha256 paths) in
structure Appended (logger : AuditLogger) (call : LogCall) (before : LogFile) (content : Bytes) :
    Prop where
  valid : ValidContent reader sha256 paths content
  kept : ∀ c, before = .regular c → c.length < logger.maxBytes → c <+: content
  /-- The new entry is at the end of the log, and its hash is the one that is found next. -/
  last : ∃ prevHash hash : MemoryText,
    (call.entry json sha256 prevHash).line ++ [newline] <:+ content ∧
      (call.entry json sha256 prevHash).hash = some hash.1 ∧
      ∀ history, LogIs (.regular content) history.now →
        (getLastHash reader paths (fun _ => false) history).1 = .ok hash

lemma attains_getLastHash (h : FindsHash reader paths file hash) :
    Attains (LogIs file) (getLastHash reader paths)
      fun found w => found = hash ∧ LogIs file w := by
  rcases h with ⟨rfl, rfl⟩ | ⟨content, rfl, hok⟩
  · have hopen : Attains (LogIs .missing) (openReadFile paths)
        fun found w => found = none ∧ LogIs .missing w := by
      refine .step fun w hw => ?_
      rw [show w.log = .missing from hw]
      exact ⟨_, rfl, rfl, hw⟩
    refine .bind hopen fun found => ?_
    rintro history ⟨rfl, hlog⟩
    exact ⟨_, history, rfl, rfl, hlog⟩
  · have hopen : Attains (LogIs (.regular content)) (openReadFile paths)
        fun found w => found = some content ∧ LogIs (.regular content) w := by
      refine .step fun w hw => ?_
      rw [show w.log = .regular content from hw]
      exact ⟨_, rfl, rfl, hw⟩
    have hread : Attains (LogIs (.regular content))
        (step paths.readFault fun w => (lastHashOf reader paths content, w))
        fun found w => found = hash ∧ LogIs (.regular content) w :=
      .step fun w hw => ⟨hash, hok, rfl, hw⟩
    refine .bind hopen fun found => ?_
    rintro history ⟨rfl, hlog⟩
    exact hread history hlog

variable (paths) in
lemma HasEntries.exists_lastHashOf {call : LogCall} (h : HasEntries reader sha256 content
      (entries ++ [(call.entry json sha256 hash).toAuditEntry])) (hwindow : LineInWindow content) :
    ∃ next : MemoryText, (call.entry json sha256 hash).hash = some next.1 ∧
      lastHashOf reader paths content = .ok next := by
  have hlength : (utf8 ((call.unsealed json hash).computeHash sha256.digest)).length < 2 ^ 64 := by
    rw [length_utf8, LogCall.byteLen_computeHash]
    decide
  exact ⟨⟨_, hlength⟩, rfl, (h.lastHashOf_eq_ok hwindow).mpr rfl⟩

lemma appended_of_appendable {lg : AuditLogger} {pre : LogFile} (hrot : Rotated lg pre file)
    (h : Appendable reader sha256 file hash content entries) (call : LogCall) :
    Appended reader sha256 paths lg call pre (finishedContent content ++
      ((call.entry json sha256 hash).line ++ [newline])) := by
  obtain ⟨hall, hwi⟩ :=
    h.holds.finishedContent.append_entry call (endsLine_finishedContent content) h.tip (.inr rfl)
  rw [append_assoc] at hall hwi
  refine ⟨(validContent_iff ..).mpr ⟨_, hall⟩, ?_, hash, ?_⟩
  · rintro c rfl hlen
    have hcon : file = .regular c := hrot.resolve_right fun hmis =>
      absurd (hmis.2 c rfl) (by omega)
    rcases h.found with ⟨hmis, -⟩ | hfo
    · rw [hcon] at hmis
      cases hmis
    · rw [hcon] at hfo
      cases hfo
      exact (prefix_append ..).trans (prefix_append ..)
  · obtain ⟨next, hnext, hfound⟩ := hall.exists_lastHashOf paths hwi
    refine ⟨next, suffix_append .., hnext, fun history hlog => ?_⟩
    obtain ⟨found, _, hrun, rfl, -⟩ := attains_getLastHash (.inr ⟨_, rfl, hfound⟩) history hlog
    rw [hrun]

variable (reader sha256 paths) in
def HasAppended (logger : AuditLogger) (call : LogCall) (before : LogFile) (w : AuditWorld) :
    Prop :=
  ∃ content, LogIs (.regular content) w ∧ Appended reader sha256 paths logger call before content

lemma satisfies_logLocked (lg : AuditLogger) (call : LogCall) :
    LogKept reader sha256 paths file (logLocked reader sha256 paths lg call)
      (fun _ => HasAppended reader sha256 paths lg call file) := by
  refine .bind (satisfies_rotateIfNeeded lg) fun _ => ?_
  refine .of_forall fun w hinv hrot => ?_
  refine .bind ((satisfies_getLastHash w.log).pre ?_) fun hash => ?_
  · rintro w' rfl
    rfl
  · refine .of_forall fun w' _ hw' => ?_
    obtain ⟨content, entries, happ⟩ := exists_appendable hinv hw'.2
    refine (satisfies_appendEntry happ call).mono ?_ (fun _ w'' hw'' => ?_) fun _ _ h => h
    · rintro w'' rfl
      exact hw'.1
    · exact ⟨_, hw'', appended_of_appendable hrot happ call⟩

def Completed (paths : AuditPaths) (result : Except AppendError Unit) : Prop :=
  result = .ok () ∨ result = .error (unlockFault paths)

lemma satisfies_log (lg : AuditLogger) (call : LogCall) :
    Satisfies (WorldInv reader sha256) (LogIs file) (lg.log reader sha256 paths call)
      (fun _ => HasAppended reader sha256 paths lg call file)
      (fun e w => e = unlockFault paths → HasAppended reader sha256 paths lg call file w) := by
  have hlo : Satisfies (WorldInv reader sha256) (LogIs file)
      (step (lockFault paths) fun w => (.ok (), w)) (fun _ => LogIs file)
      (fun e w => e = unlockFault paths → HasAppended reader sha256 paths lg call file w) :=
    .step (fun _ _ _ => nofun) fun _ hinv hw => .ok hinv hw
  refine .bind hlo fun _ => .bind hlo fun _ => ?_
  refine .bind (satisfies_logLocked lg call).attempt fun res => ?_
  refine .bind (Q := fun _ w => (∀ a, res = .ok a →
      HasAppended reader sha256 paths lg call file w) ∧
        ∀ e, res = .error e → NotUnlock paths e w) ?_ fun unlocked => ?_
  · -- Unlocking leaves the files as they are, whether it succeeds or not.
    exact .attempt_const (.step (fun _ _ hw => hw) fun _ hinv hw => .ok hinv hw)
  · cases res with
    | ok u => exact .lift (fun _ _ _ _ hw => hw.1 u rfl) fun _ _ _ _ hw _ => hw.1 u rfl
    | error e =>
      refine .lift (fun _ _ hok => by cases hok) fun e' w he' _ hw heq => ?_
      cases he'
      exact absurd heq (hw.2 e rfl)

end Rules

/-! ### Runs without errors -/

/-- What a log holds, when it can be opened. -/
def LogFile.content : LogFile → Bytes
  | .regular content => content
  | _ => []

section Attained

variable {reader : EntryReader json} {sha256 : Sha256} {paths : AuditPaths} {content : Bytes}
  {file : LogFile} {hash : MemoryText}

lemma attains_writeAll (content bs : Bytes) : Attains (LogIs (.regular content)) (writeAll paths bs)
      fun _ => LogIs (.regular (content ++ bs)) := by
  induction bs generalizing content with
  | nil => exact .pure fun w hw => by rwa [append_nil]
  | cons b bs ih =>
    have hrest := ih (content ++ [b])
    rw [append_assoc] at hrest
    refine .bind (.step fun w hw => ?_) fun _ => hrest
    refine ⟨(), rfl, ?_⟩
    rw [show w.log = .regular content from hw]
    rfl

lemma attains_ensureTrailingNewline :
    Attains (LogIs (.regular content)) (ensureTrailingNewline paths)
      fun _ => LogIs (.regular (finishedContent content)) := by
  have hrd : Attains (LogIs (.regular content)) (readLastByte paths)
      fun last w => last = content.getLast? ∧ LogIs (.regular content) w := by
    refine .step fun w hw => ⟨w.log.lastByte, rfl, ?_, hw⟩
    rw [show w.log = .regular content from hw]
    rfl
  refine .bind hrd fun last => ?_
  rintro hist ⟨rfl, hlog⟩
  exact attains_writeAll content _ hist hlog

lemma attains_appendEntry (hfile : file ≠ .special) (e : StoredEntry json) :
    Attains (LogIs file) (appendEntry paths e)
      fun _ => LogIs (.regular (finishedContent file.content ++ (e.line ++ [newline]))) := by
  refine .bind (Q := fun _ => LogIs (.regular file.content)) (.step fun w hw => ?_) fun _ => ?_
  · rw [show w.log = file from hw]
    cases file with
    | missing => exact ⟨(), rfl, rfl⟩
    | regular content => exact ⟨(), rfl, hw⟩
    | special => exact absurd rfl hfile
  refine .bind attains_ensureTrailingNewline fun _ => ?_
  refine .bind (attains_writeAll _ _) fun _ => ?_
  refine .bind (Q := fun _ =>
      LogIs (.regular (finishedContent file.content ++ (e.line ++ [newline]))))
    (.step fun w hw => ⟨(), rfl, hw⟩) fun _ => ?_
  exact .assign fun w hw => hw

lemma attains_rotateIfNeeded_small (hfile : file ≠ .special) (logger : AuditLogger)
    (hsize : file.content.length < logger.maxBytes) :
    Attains (LogIs file) (rotateIfNeeded paths logger) fun _ => LogIs file := by
  refine .bind (Q := fun length w => (∀ n, length = some n → n < logger.maxBytes) ∧ LogIs file w)
    (.step fun w hw => ?_) fun length => ?_
  · rw [show w.log = file from hw]
    cases file with
    | missing => exact ⟨none, rfl, nofun, hw⟩
    | regular content =>
      exact ⟨some content.length, rfl, fun n hn => Option.some.inj hn ▸ hsize, hw⟩
    | special => exact absurd rfl hfile
  · rintro history ⟨hlength, hlog⟩
    cases length with
    | none => exact ⟨(), history, rfl, hlog⟩
    | some n =>
      simp only [if_pos (hlength n rfl)]
      exact ⟨(), history, rfl, hlog⟩

lemma FindsHash.ne_special (h : FindsHash reader paths file hash) : file ≠ .special := by
  rcases h with ⟨rfl, -⟩ | ⟨content, rfl, -⟩ <;> nofun

variable (sha256) in
lemma attains_log (h : FindsHash reader paths file hash) (logger : AuditLogger)
    (hsize : file.content.length < logger.maxBytes) (call : LogCall) :
    Attains (LogIs file) (logger.log reader sha256 paths call)
      fun _ => LogIs (.regular (finishedContent file.content ++
        ((call.entry json sha256 hash).line ++ [newline]))) := by
  have hlock : Attains (LogIs file) (step (lockFault paths) fun w => (.ok (), w))
      fun _ => LogIs file := .step fun w hw => ⟨(), rfl, hw⟩
  have hlocked : Attains (LogIs file) (logLocked reader sha256 paths logger call)
      fun _ => LogIs (.regular (finishedContent file.content ++
        ((call.entry json sha256 hash).line ++ [newline]))) := by
    refine .bind (attains_rotateIfNeeded_small h.ne_special logger hsize) fun _ =>
      .bind (attains_getLastHash h) fun found => ?_
    rintro history ⟨rfl, hlog⟩
    exact attains_appendEntry h.ne_special _ history hlog
  refine .bind hlock fun _ => .bind hlock fun _ => .bind hlocked.attempt fun result => ?_
  have hunlock : Attains (LogIs (.regular (finishedContent file.content ++
      ((call.entry json sha256 hash).line ++ [newline]))))
      (step (unlockFault paths) fun w => (.ok (), w))
      fun _ => LogIs (.regular (finishedContent file.content ++
        ((call.entry json sha256 hash).line ++ [newline]))) :=
    .step fun w hw => ⟨(), rfl, hw⟩
  rintro history ⟨u, rfl, hlog⟩
  refine Attains.bind hunlock.attempt (fun unlocked => ?_) history hlog
  rintro history' ⟨v, rfl, hlog'⟩
  exact ⟨(), history', rfl, hlog'⟩

/-- The file system fails at the second byte of an entry. -/
lemma log_torn (h : lastHashOf reader paths content = .ok hash) (hends : EndsLine content)
    (logger : AuditLogger) (hsize : content.length < logger.maxBytes) (call : LogCall)
    {b b' : UInt8} {rest : Bytes} (hline : (call.entry json sha256 hash).line = b :: b' :: rest)
    {w : AuditWorld} (hw : LogIs (.regular content) w) :
    (logger.log reader sha256 paths call (· == 8) (.start w)).2.now.log =
      .regular (content ++ [b]) := by
  have hlast : missingNewline content.getLast? = [] := by
    have := finishedContent_of_endsLine hends
    rwa [finishedContent, append_right_eq_self] at this
  have hlog : w.log = .regular content := hw
  -- Before it fails there are two steps of the lock, one of the rotation, two of the last hash, the
  -- opening, the last byte of the log, and the first byte of the entry.
  simp [AuditLogger.log, logLocked, rotateIfNeeded, inspectLog, getLastHash, openReadFile,
    appendEntry, openAppendFile, ensureTrailingNewline, readLastByte, writeAll, appendByte,
    Bind.bind, Pure.pure, liftM, monadLift, MonadLift.monadLift, step, Steps.attempt,
    Control.History.record, Control.History.start, LogFile.lastByte, LogFile.append, hlog, hsize,
    h, hlast, hline]

end Attained

/-! ### A reader -/

section Canonical

lemma AuditEventType.wireName_injective : Function.Injective AuditEventType.wireName := by
  have hfn : ∀ e : AuditEventType, all.find? (fun d => d.wireName == e.wireName) = some e := by
    intro e
    cases e <;> decide +kernel
  intro d e h
  have hfo := hfn d
  rw [h, hfn e] at hfo
  exact (some.inj hfo).symm

lemma AuditSeverity.wireName_injective : Function.Injective AuditSeverity.wireName := by
  have hfn : ∀ s : AuditSeverity, all.find? (fun t => t.wireName == s.wireName) = some s := by
    intro s
    cases s <;> decide +kernel
  intro s t h
  have hfo := hfn s
  rw [h, hfn t] at hfo
  exact (some.inj hfo).symm

variable {e : StoredEntry json}

lemma StoredEntry.IsWritten.members_eq (he : e.IsWritten) : ∃ hash, e.hash = some hash ∧ e.members =
      [(keyId, .string e.id), (keyTimestamp, .string e.timestamp),
        (keyEventType, .string e.eventType.wireName), (keySeverity, .string e.severity.wireName),
        (keyUser, .string e.user), (keyResource, .string e.resource),
        (keyDescription, .string e.description), (keyPrevHash, .string e.prevHash),
        (keyHashVersion, .number 1), (keyHash, .string hash)] := by
  obtain ⟨hash, hha⟩ := ne_none_iff_exists'.mp he.hash
  refine ⟨hash, hha, ?_⟩
  rw [members, renderedMetadata, he.metadata, he.hashVersion, hha]
  rfl

lemma StoredEntry.eq_of_toJson_append {d : StoredEntry json} (hd : d.IsWritten)
    (he : e.IsWritten) {x y : Text} (h : d.toJson ++ x = e.toJson ++ y) : d = e ∧ x = y := by
  obtain ⟨hash, hha, hms⟩ := hd.members_eq
  obtain ⟨hash', hha', hms'⟩ := he.members_eq
  have hsp : List.Forall₂ SameShape d.members e.members := by
    rw [hms, hms']
    simp only [forall₂_cons, List.Forall₂.nil, and_true]
    exact ⟨.inr ⟨_, _, _, rfl, rfl⟩, .inr ⟨_, _, _, rfl, rfl⟩, .inr ⟨_, _, _, rfl, rfl⟩,
      .inr ⟨_, _, _, rfl, rfl⟩, .inr ⟨_, _, _, rfl, rfl⟩, .inr ⟨_, _, _, rfl, rfl⟩,
      .inr ⟨_, _, _, rfl, rfl⟩, .inr ⟨_, _, _, rfl, rfl⟩, .inl rfl, .inr ⟨_, _, _, rfl, rfl⟩⟩
  obtain ⟨heq, hrest⟩ := jsonObject_append_inj hsp h
  refine ⟨?_, hrest⟩
  rw [hms, hms'] at heq
  simp only [List.cons.injEq, Prod.mk.injEq, JsonScalar.string.injEq, true_and, and_true] at heq
  obtain ⟨hid, hts, heve, hsev, hus, hres, hde, hpr, rfl⟩ := heq
  have hfl : d.toAuditFields = e.toAuditFields := by
    obtain ⟨⟨⟨⟩⟩⟩ := d
    obtain ⟨⟨⟨⟩⟩⟩ := e
    have hd' := hd.metadata.trans he.metadata.symm
    have hver := hd.hashVersion.trans he.hashVersion.symm
    simp only [AuditFields.mk.injEq]
    exact ⟨hid, hts, AuditEventType.wireName_injective heve,
      AuditSeverity.wireName_injective hsev, hus, hres, hde, hd', hpr,
      hver, hha.trans hha'.symm⟩
  obtain ⟨⟨⟩⟩ := d
  obtain ⟨⟨⟩⟩ := e
  simp only [StoredEntry.mk.injEq, AuditEntry.mk.injEq]
  exact hfl

lemma braces_mem_toJson (he : e.IsWritten) : '\x7b' ∈ e.toJson ∧ '\x7d' ∈ e.toJson := by
  obtain ⟨hash, -, hms⟩ := he.members_eq
  rw [toJson, hms, jsonObject]
  simp

open Classical in
/-- The reader that accepts exactly what loggers write, with any number of carriage returns behind
it. -/
noncomputable def canonicalReader (json : JsonValues) : EntryReader json where
  parse line :=
    if h : ∃ e : StoredEntry json, e.IsWritten ∧ e.toJson = line.rdropWhile (· = '\r') then
      some h.choose
    else none
  parse_nil := by
    rw [dif_neg]
    rintro ⟨e, he, hjson⟩
    have hbrace := (braces_mem_toJson he).1
    rw [hjson] at hbrace
    cases hbrace
  parse_carriageReturn line := by
    simp only [rdropWhile_concat_pos (· = '\r') line '\r' (by simp)]
  parse_brackets {line e} h := by
    split_ifs at h with hexists
    refine .inl ?_
    obtain ⟨he, hjson⟩ := hexists.choose_spec
    obtain ⟨hopen, hclose⟩ := braces_mem_toJson he
    rw [hjson] at hopen hclose
    exact ⟨mem_of_mem_rdropWhile hopen, mem_of_mem_rdropWhile hclose⟩
  parse_toJson e he := by
    have hexists : ∃ d : StoredEntry json, d.IsWritten ∧
        d.toJson = e.toJson.rdropWhile (· = '\r') :=
      ⟨e, he, (printable_toJson he).rdropWhile_carriageReturn.symm⟩
    rw [dif_pos hexists, some.injEq]
    obtain ⟨hd, hjson⟩ := hexists.choose_spec
    have hsame := hjson.trans (printable_toJson he).rdropWhile_carriageReturn
    exact (StoredEntry.eq_of_toJson_append (x := []) (y := []) hd he (by rw [hsame])).1
  parse_torn e he t hbegins hne := by
    rw [dif_neg]
    rintro ⟨d, hd, hjson⟩
    have hprintable : Printable t := fun c hc => printable_toJson he c (hbegins.subset hc)
    rw [hprintable.rdropWhile_carriageReturn] at hjson
    obtain ⟨rest, hrest⟩ := hbegins
    obtain ⟨rfl, rfl⟩ := StoredEntry.eq_of_toJson_append (y := []) hd he
      (by rw [hjson, hrest, append_nil])
    exact hne hjson.symm

end Canonical

/-! ### Any number of loggers -/

section Runs

variable {reader : EntryReader json} {sha256 : Sha256} {paths : AuditPaths} {start : LogFile}

variable (paths) in
lemma log_run {s : AuditState} (h : LogInv reader sha256 s.log) (lg : AuditLogger)
    (call : LogCall) (fl : ℕ → Bool) :
    (∀ w ∈ (lg.log reader sha256 paths call fl (.start (s.world lg))).2.states,
      LogInv reader sha256 w.log) ∧
    (Completed paths (lg.log reader sha256 paths call fl (.start (s.world lg))).1 →
      HasAppended reader sha256 paths lg call s.log
        (lg.log reader sha256 paths call fl (.start (s.world lg))).2.now) := by
  have hwor : WorldInv reader sha256 (s.world lg) := h
  obtain ⟨hsts, hok, her⟩ := satisfies_log lg call fl (.start (s.world lg))
    (forall_mem_singleton.mpr hwor) rfl
  refine ⟨hsts, fun hcom => ?_⟩
  rcases hcom with hres | hres
  · exact hok () hres
  · exact her _ hres rfl

lemma AuditState.Reachable.logInv (hst : LogInv reader sha256 start) {s : AuditState}
    (h : s.Reachable reader sha256 paths start) : LogInv reader sha256 s.log := by
  induction h with
  | start arcs => exact hst
  | create h maxBytes maxArchives fl hrun ih => exact ih
  | log h hk call fl hw ih => exact (log_run paths ih _ call fl).1 _ hw

variable {content : Bytes}

lemma lastHashOf_hidden (h : ¬TailVisible content) :
    lastHashOf reader paths content = .ok genesisHash := by
  rw [TailVisible, not_or, not_not] at h
  rw [lastHashOf, if_neg (by simpa using h.1), tailHash, if_pos h.2]

lemma not_validContent_hidden (hv : ValidContent reader sha256 paths content)
    (hhi : ¬TailVisible content) (call : LogCall) :
    ¬ValidContent reader sha256 paths (finishedContent content ++
      ((call.entry json sha256 genesisHash).line ++ [newline])) := by
  rw [validContent_iff] at hv ⊢
  rintro ⟨es', h'⟩
  obtain ⟨entries, h⟩ := hv
  rw [← append_assoc] at h'
  have hpr := h.finishedContent.prevHash_of_append (endsLine_finishedContent content)
    (call.isWritten_entry json sha256 genesisHash) (.inr rfl) h'
  rcases eq_nil_or_concat' entries with rfl | ⟨entries, e, rfl⟩
  · exact hhi (.inl (h.eq_nil_iff.mpr rfl))
  · rw [tipHash, Codec.tip_concat] at hpr
    exact computeHash_ne_genesis e hpr.symm

lemma reachable_create {file : LogFile} {hash : MemoryText} (h : FindsHash reader paths file hash)
    (maxBytes maxArchives : ℕ) : AuditState.Reachable reader sha256 paths file
      ⟨file, fun _ => .missing, [⟨hash.1, maxBytes, maxArchives⟩]⟩ := by
  obtain ⟨_, after, hrun, rfl, -⟩ :=
    attains_getLastHash h (.start ⟨file, fun _ => .missing, []⟩) rfl
  exact .create (.start fun _ => .missing) maxBytes maxArchives _ hrun

def sampleCall : LogCall where
  event := .packageInstall
  severity := .info
  resource := "vim"
  description := []
  timestamp := "2026-01-01T00:00:00.000Z"
  id := "1"
  user := none
  timestamp_le := by decide +kernel
  id_le := by decide +kernel

lemma exists_broken_run (hv : ValidContent reader sha256 paths content)
    (hhi : ¬TailVisible content) :
    ∃ s : AuditState, s.Reachable reader sha256 paths (.regular content) ∧ ∃ lg broken,
      s.loggers[0]? = some lg ∧
      (lg.log reader sha256 paths sampleCall (fun _ => false) (.start (s.world lg))).1 = .ok () ∧
      (lg.log reader sha256 paths sampleCall (fun _ => false)
        (.start (s.world lg))).2.now.log = .regular broken ∧
      ¬ValidContent reader sha256 paths broken := by
  have hha : FindsHash reader paths (.regular content) genesisHash :=
    .inr ⟨content, rfl, lastHashOf_hidden hhi⟩
  obtain ⟨_, aft, hrun, hlog⟩ := attains_log sha256 hha ⟨genesis, content.length + 1, 0⟩
    (Nat.lt_succ_self _) sampleCall (.start ⟨.regular content, fun _ => .missing, genesis⟩) rfl
  refine ⟨_, reachable_create hha (content.length + 1) 0, ⟨genesis, content.length + 1, 0⟩,
    finishedContent content ++ ((sampleCall.entry json sha256 genesisHash).line ++ [newline]), rfl,
    ?_⟩
  simp only [AuditState.world, hrun]
  exact ⟨trivial, hlog, not_validContent_hidden hv hhi sampleCall⟩

/-- **Appended entries continue the chain.** For any number of loggers over a log that was missing
or valid at first, whatever they were created from and however their calls failed or were cut off,
every call that completes leaves a valid log with all that was there and with its entry at the end,
unless the log had more line ends at its end than fit into the window. -/
theorem log_appends_iff (hstart : start = .missing ∨
      ∃ content, start = .regular content ∧ ValidContent reader sha256 paths content) :
    (∀ s : AuditState, s.Reachable reader sha256 paths start → ∀ (k : ℕ) (logger : AuditLogger),
      s.loggers[k]? = some logger → ∀ (call : LogCall) (fails : ℕ → Bool),
      Completed paths (logger.log reader sha256 paths call fails (.start (s.world logger))).1 →
      ∃ content, (logger.log reader sha256 paths call fails (.start (s.world logger))).2.now.log =
          .regular content ∧
        Appended reader sha256 paths logger call s.log content) ↔
    ∀ content, start = .regular content → TailVisible content := by
  constructor
  · rintro h content rfl
    by_contra hhi
    obtain ⟨_, hcon, hv⟩ := hstart.resolve_left nofun
    cases hcon
    obtain ⟨s, hs, logger, broken, hlgg, hok, hlog, hbr⟩ := exists_broken_run hv hhi
    obtain ⟨txt', hc', happ⟩ := h s hs 0 logger hlgg sampleCall (fun _ => false) (.inl hok)
    rw [hlog] at hc'
    cases hc'
    exact hbr happ.valid
  · intro hvisible s hs k logger hk call fails hcom
    have hinv : LogInv reader sha256 start := by
      rcases hstart with rfl | ⟨content, rfl, hv⟩
      · exact .missing
      · obtain ⟨entries, hes⟩ := (validContent_iff ..).mp hv
        exact .sound hes (hvisible content rfl)
    exact (log_run paths (hs.logInv hinv) logger call fails).2 hcom

def zeroSha256 : Sha256 := ⟨fun _ => List.replicate 32 0, fun _ => length_replicate⟩

def samplePaths : AuditPaths := ⟨"audit.jsonl", "audit.jsonl.lock", []⟩

def sampleLogger : AuditLogger := ⟨genesis, 1024, 1⟩

def sampleState : AuditState := ⟨.regular [], fun _ => .missing, [sampleLogger]⟩

/-- The first entry of an empty log. -/
theorem log_appends_first :
    ∃ content, (sampleLogger.log (canonicalReader nullJson) zeroSha256 samplePaths sampleCall
        (fun _ => false) (.start (sampleState.world sampleLogger))).2.now.log = .regular content ∧
      Appended (canonicalReader nullJson) zeroSha256 samplePaths sampleLogger sampleCall
        sampleState.log content := by
  have hv : ValidContent (canonicalReader nullJson) zeroSha256 samplePaths [] :=
    (validContent_iff ..).mpr ⟨[], hasEntries_nil⟩
  have hvisible : ∀ content, LogFile.regular [] = .regular content → TailVisible content := by
    rintro content hcon
    cases hcon
    exact .inl rfl
  have hha : FindsHash (canonicalReader nullJson) samplePaths (.regular []) genesisHash :=
    .inr ⟨[], rfl, if_pos rfl⟩
  have hrea : sampleState.Reachable (canonicalReader nullJson) zeroSha256 samplePaths
      (.regular []) := reachable_create hha 1024 1
  obtain ⟨_, aft, hrun, -⟩ := attains_log zeroSha256 hha sampleLogger (by decide) sampleCall
    (.start (sampleState.world sampleLogger)) rfl
  exact (log_appends_iff (.inr ⟨[], rfl, hv⟩)).mpr hvisible sampleState hrea 0
    sampleLogger rfl sampleCall (fun _ => false) (.inl (by rw [hrun]))

def hiddenLog (json : JsonValues) (sha256 : Sha256) : Bytes :=
  (sampleCall.entry json sha256 genesisHash).line ++
    List.replicate (maxAuditEntryBytes + 2) carriageReturn

lemma not_tailVisible_hiddenLog : ¬TailVisible (hiddenLog json sha256) := by
  have hwi : tailWindow (hiddenLog json sha256) =
      List.replicate (maxAuditEntryBytes + 2) carriageReturn := by
    rw [tailWindow, tailStart, hiddenLog, length_append, length_replicate,
      Nat.add_sub_cancel, drop_left]
  have hbl : (tailWindow (hiddenLog json sha256)).rdropWhile isLineEnd = [] := by
    rw [hwi, rdropWhile_eq_nil_iff]
    intro b hb
    rw [eq_of_mem_replicate hb]
    rfl
  rintro (hnil | hne)
  · exact line_ne_nil _ (append_eq_nil_iff.mp hnil).1
  · exact hne hbl

lemma validContent_hiddenLog : ValidContent reader sha256 paths (hiddenLog json sha256) := by
  have hrd : ∀ n line, readLine reader (line ++ List.replicate n carriageReturn) =
      readLine reader line := by
    intro n line
    induction n with
    | zero => rw [replicate_zero, append_nil]
    | succ n ih => rw [replicate_succ', ← append_assoc, readLine_carriageReturn, ih]
  have he := sampleCall.isWritten_entry json sha256 genesisHash
  have hpn : newline ∉ hiddenLog json sha256 := by
    intro hmem
    rcases mem_append.mp hmem with hl | hrest
    · cases not_isLineEnd_of_mem_line he hl
    · cases eq_of_mem_replicate hrest
  have hne : hiddenLog json sha256 ≠ [] := fun hnil =>
    line_ne_nil _ (append_eq_nil_iff.mp hnil).1
  refine (validContent_iff ..).mpr ⟨[(sampleCall.entry json sha256 genesisHash).toAuditEntry],
    ?_, ?_, ?_⟩
  · rw [byteLines_of_notMem hne hpn, map_singleton, hiddenLog, hrd, readLine_line he]
    rfl
  · exact forall_mem_singleton.mpr (sampleCall.verify_entry genesisHash)
  · exact ⟨rfl, trivial⟩

/-- Over such a log, the call of a logger returns no error and leaves an invalid log. -/
theorem log_breaks_hidden_chain : ValidContent (canonicalReader nullJson) zeroSha256 samplePaths
        (hiddenLog nullJson zeroSha256) ∧
      ∃ s : AuditState, s.Reachable (canonicalReader nullJson) zeroSha256 samplePaths
          (.regular (hiddenLog nullJson zeroSha256)) ∧ ∃ logger broken,
        s.loggers[0]? = some logger ∧
        (logger.log (canonicalReader nullJson) zeroSha256 samplePaths sampleCall (fun _ => false)
          (.start (s.world logger))).1 = .ok () ∧
        (logger.log (canonicalReader nullJson) zeroSha256 samplePaths sampleCall (fun _ => false)
          (.start (s.world logger))).2.now.log = .regular broken ∧
        ¬ValidContent (canonicalReader nullJson) zeroSha256 samplePaths broken :=
  ⟨validContent_hiddenLog, exists_broken_run validContent_hiddenLog not_tailVisible_hiddenLog⟩

/-- **A log that loggers began is valid** up to a last line that may be torn, however their calls
failed or were cut off. -/
theorem log_valid_or_torn {s : AuditState} (h : s.Reachable reader sha256 paths .missing) :
    s.log = .missing ∨ ∃ lines torn, s.log = .regular (lines ++ torn) ∧
      ValidContent reader sha256 paths lines ∧
      (torn = [] ∨ EndsLine lines ∧ ∃ e : StoredEntry json, torn <+: e.line ∧ torn ≠ e.line) := by
  have hinv := h.logInv .missing
  generalize s.log = log at hinv ⊢
  cases hinv with
  | missing => exact .inl rfl
  | sound h =>
    exact .inr ⟨_, [], by rw [append_nil], (validContent_iff ..).mpr ⟨_, h⟩, .inl rfl⟩
  | torn h hc _ _ htorn hne =>
    exact .inr ⟨_, _, rfl, (validContent_iff ..).mpr ⟨_, h⟩, .inr ⟨hc, _, htorn, hne⟩⟩

/-- The line of the first entry of a log. -/
def firstLine : Bytes := (sampleCall.entry nullJson zeroSha256 genesisHash).line ++ [newline]

/-- A first call of a new logger completes, and the writing of a second entry stops after one
byte. -/
theorem log_valid_or_torn_second : ∃ s : AuditState,
    s.Reachable (canonicalReader nullJson) zeroSha256 samplePaths .missing ∧
      s.log = .regular (firstLine ++ [123]) ∧
      ∃ lines torn, s.log = .regular (lines ++ torn) ∧
        ValidContent (canonicalReader nullJson) zeroSha256 samplePaths lines ∧
        (torn = [] ∨ EndsLine lines ∧
          ∃ e : StoredEntry nullJson, torn <+: e.line ∧ torn ≠ e.line) := by
  have hnil : HasEntries (canonicalReader nullJson) zeroSha256 [] [] := hasEntries_nil
  have htip : genesisHash.1 = tipHash zeroSha256 ([] : List (AuditEntry nullJson)) := rfl
  obtain ⟨hentries, hwindow⟩ := hnil.append_entry sampleCall (.inl rfl) htip (.inr rfl)
  obtain ⟨hash, -, hfound⟩ := hentries.exists_lastHashOf samplePaths hwindow
  have hsize : firstLine.length < maxAuditEntryBytes + 2 := by
    have hle : (sampleCall.entry nullJson zeroSha256 genesisHash).line.length ≤
        maxAuditEntryBytes := sampleCall.length_line_le (by decide +kernel)
    rw [firstLine, length_append, length_singleton]
    omega
  obtain ⟨rest, hline⟩ :
      ∃ rest, (sampleCall.entry nullJson zeroSha256 hash).line = 123 :: 34 :: rest := ⟨_, rfl⟩
  have hnew : FindsHash (canonicalReader nullJson) samplePaths .missing genesisHash :=
    .inl ⟨rfl, rfl⟩
  have hcreated :
      AuditState.Reachable (canonicalReader nullJson) zeroSha256 samplePaths .missing _ :=
    reachable_create hnew (maxAuditEntryBytes + 2) 1
  obtain ⟨_, after, hrun, hlog⟩ := attains_log zeroSha256 hnew
    ⟨genesisHash.1, maxAuditEntryBytes + 2, 1⟩ (by decide) sampleCall
    (.start ⟨.missing, fun _ => .missing, genesisHash.1⟩) rfl
  have hfirst := hcreated.log (k := 0) rfl sampleCall (fun _ => false)
    ((congrArg (after.now ∈ ·.2.states) hrun).mpr after.now_mem_states)
  have hsecond := hfirst.log (k := 0) rfl sampleCall (· == 8) (Control.History.now_mem_states _)
  have htorn := log_torn hfound (.inr ⟨_, rfl⟩)
    ⟨after.now.lastHash, maxAuditEntryBytes + 2, 1⟩ hsize sampleCall hline hlog
  refine ⟨_, hsecond, htorn, (log_valid_or_torn hsecond).resolve_left fun hmissing => ?_⟩
  cases htorn.symm.trans hmissing

end Runs

end Omg.Security
