import EmbeddedKv.Config.Load
import EmbeddedKv.Library.Separate

/-!
# The order of the lines

Which lines of a configuration file may change places. A key is about one `Setting`: the two keys
for the size of the memory are about the same one, and so are `logfile` and `server-dir`, as the
log file is opened in the working directory.

## What is proved

A line changes only the setting that it is about, and what it makes of it, and whether it ends the
server, depends on nothing else (`separate_lines`). So two files that have the same lines about
each setting, in the same order, load the same configuration, wherever these lines stand among the
others and whatever comments there are (`order_of_lines`).
-/

namespace EmbeddedKv.Config

open EmbeddedKv.Library EmbeddedKv.Flash

/-! ### Settings -/

/-- What a key may be about. -/
inductive Setting where
  /-- The port. -/
  | port
  /-- The size of the memory. -/
  | memory
  /-- The size of the flash cache. -/
  | flashSize
  /-- The size of its files. -/
  | fileSize
  /-- The size of their buffers. -/
  | bufferSize
  /-- The directory of the flash cache. -/
  | flashDir
  /-- The mode of the server. -/
  | cacheMode
  /-- The mode of the flash cache. -/
  | flashMode
  /-- The level of the messages. -/
  | verbosity
  /-- The log file and the working directory. -/
  | paths
  deriving DecidableEq

/-- Two servers have the same setting. -/
def Setting.Agree : Setting → KvServer → KvServer → Prop
  | port, s, t => s.port = t.port
  | memory, s, t => s.maxmemory = t.maxmemory
  | flashSize, s, t => s.flashCacheSize = t.flashCacheSize
  | fileSize, s, t => s.flashCacheFileSize = t.flashCacheFileSize
  | bufferSize, s, t => s.flashCacheWritebufferSize = t.flashCacheWritebufferSize
  | flashDir, s, t => s.flashCacheDir = t.flashCacheDir
  | cacheMode, s, t => s.cacheMode = t.cacheMode
  | flashMode, s, t => s.flashcacheMode = t.flashcacheMode
  | verbosity, s, t => s.verbosity = t.verbosity
  | paths, s, t => s.logfile = t.logfile ∧ s.cwd = t.cwd

/-- What a key for a size is about. -/
def SizeKey.setting : SizeKey → Setting
  | memcacheSizeMb | memcacheSizeKb => .memory
  | flashcacheSizeMb | flashcacheSizeKb => .flashSize
  | flashcacheFileSizeKb | flashcacheFileSizeMb => .fileSize
  | flashcacheWritebufferSizeB => .bufferSize

/-- What a key is about. -/
def ConfigKey.setting : ConfigKey → Setting
  | port => .port
  | size k => k.setting
  | flashcacheDir => .flashDir
  | serverMode => .cacheMode
  | flashcacheMode => .flashMode
  | logLevel => .verbosity
  | logfile | serverDir => .paths

variable {env : Files} {o : Overflow} {s s' t : KvServer} {arg line : Bytes} {c : Setting} {k : ConfigKey}

theorem Setting.equivalence (c : Setting) : Equivalence c.Agree := by
  cases c with
  | paths => exact ⟨fun s => ⟨rfl, rfl⟩, fun h => ⟨h.1.symm, h.2.symm⟩, fun h h' => ⟨h.1.trans h'.1, h.2.trans h'.2⟩⟩
  | _ => exact ⟨fun s => rfl, fun h => Eq.symm h, fun h h' => Eq.trans h h'⟩

/-- The settings are all there is. -/
theorem eq_of_agree (h : ∀ c : Setting, c.Agree s t) : s = t := by
  obtain ⟨hlog, hcwd⟩ := h .paths
  have hport : s.port = t.port := h .port
  have hmemory : s.maxmemory = t.maxmemory := h .memory
  have hflash : s.flashCacheSize = t.flashCacheSize := h .flashSize
  have hfile : s.flashCacheFileSize = t.flashCacheFileSize := h .fileSize
  have hbuffer : s.flashCacheWritebufferSize = t.flashCacheWritebufferSize := h .bufferSize
  have hdir : s.flashCacheDir = t.flashCacheDir := h .flashDir
  have hmode : s.cacheMode = t.cacheMode := h .cacheMode
  have hflashMode : s.flashcacheMode = t.flashcacheMode := h .flashMode
  have hlevel : s.verbosity = t.verbosity := h .verbosity
  cases s
  cases t
  simp_all

/-! ### Keys -/

/-- **The value of a size** changes its setting, and does not look at any other. -/
theorem SizeKey.set_apart (k : SizeKey) (hs : k.set o arg s = .ok s') :
    (∀ c, c ≠ k.setting → c.Agree s s') ∧ ∀ t, ∃ t', k.set o arg t = .ok t' ∧ k.setting.Agree s' t' := by
  unfold SizeKey.set at hs ⊢
  cases hp : signedProduct o k.width (atoi arg) k.factors with
  | error e => simp only [hp] at hs; cases hs
  | ok p =>
    simp only [hp] at hs ⊢
    have hfield : ∀ t, k.field (k.store p t) = k.field (k.store p s) := fun t => by cases k <;> rfl
    by_cases hpos : k.field (k.store p s) ≤ 0
    · rw [if_pos hpos] at hs
      cases hs
    · rw [if_neg hpos] at hs
      cases hs
      refine ⟨fun c hc => ?_, fun t => ⟨k.store p t, by rw [hfield, if_neg hpos], ?_⟩⟩
      · cases k <;> cases c <;> first | exact absurd rfl hc | exact ⟨rfl, rfl⟩ | rfl
      · cases k <;> rfl

/-- **A key changes only its setting.** -/
theorem ConfigKey.set_frame (hs : k.set env o arg s = .ok s') (hc : c ≠ k.setting) : c.Agree s s' := by
  cases k with
  | size k => exact (k.set_apart hs).1 c hc
  | logfile =>
    rw [set] at hs
    split_ifs at hs
    cases hs
    cases c <;> first | exact absurd rfl hc | rfl
  | serverDir =>
    rw [set] at hs
    cases hcwd : env.chdir s.cwd arg with
    | none => rw [hcwd] at hs; cases hs
    | some cwd =>
      rw [hcwd] at hs
      cases hs
      cases c <;> first | exact absurd rfl hc | rfl
  | port | flashcacheDir | serverMode | flashcacheMode | logLevel =>
    cases hs
    cases c <;> first | exact absurd rfl hc | exact ⟨rfl, rfl⟩ | rfl

/-- **What a key does depends on its setting only.** -/
theorem ConfigKey.set_part (hst : k.setting.Agree s t) (hs : k.set env o arg s = .ok s') :
    ∃ t', k.set env o arg t = .ok t' ∧ k.setting.Agree s' t' := by
  cases k with
  | size k => exact (k.set_apart hs).2 t
  | port | flashcacheDir =>
    cases hs
    exact ⟨_, rfl, rfl⟩
  | serverMode =>
    cases hs
    exact ⟨_, rfl, congrArg (pick serverModes arg.dropLast).getD hst⟩
  | flashcacheMode =>
    cases hs
    exact ⟨_, rfl, congrArg (pick flashcacheModes arg.dropLast).getD hst⟩
  | logLevel =>
    cases hs
    exact ⟨_, rfl, congrArg (pick logLevels arg.dropLast).getD hst⟩
  | logfile =>
    obtain ⟨hlog, hcwd⟩ := hst
    rw [set] at hs ⊢
    rw [← hlog, ← hcwd]
    split_ifs at hs ⊢
    cases hs
    exact ⟨_, rfl, rfl, rfl⟩
  | serverDir =>
    obtain ⟨hlog, hcwd⟩ := hst
    rw [set] at hs ⊢
    rw [← hcwd]
    cases hchdir : env.chdir s.cwd arg with
    | none => rw [hchdir] at hs; cases hs
    | some cwd =>
      rw [hchdir] at hs
      cases hs
      exact ⟨_, rfl, hlog, rfl⟩
/-! ### Lines -/

/-- A comment or an empty line. -/
def Skipped (line : Bytes) : Prop :=
  (cstr line).head? = some hash ∨ (cstr line).head? = none ∨ (cstr line).head? = some newline

instance : DecidablePred Skipped := fun _ => inferInstanceAs (Decidable (_ ∨ _ ∨ _))

/-- **What a line is about**, as `fgets` has read it: it sets something if it has two words, the
first of which is a key. -/
def lineSetting (line : Bytes) : Option Setting :=
  if Skipped line then none
  else
    match words space (cstr line) with
    | [word, _] => (ConfigKey.ofWord word).map ConfigKey.setting
    | _ => none

/-- **A line that can be read**: it is skipped, or has one to nine words. -/
def Readable (line : Bytes) : Prop :=
  Skipped line ∨ (words space (cstr line) ≠ [] ∧ (words space (cstr line)).length < 10)

instance : DecidablePred Readable := fun _ => inferInstanceAs (Decidable (_ ∨ _ ∧ _))

theorem configLine_skipped (h : Skipped line) (s : KvServer) : configLine env o line s = .ok s := if_pos h

theorem configLine_words (h : ¬ Skipped line) (s : KvServer) :
    configLine env o line s = configWords env o (words space (cstr line)) s := if_neg h

/-- A line about a setting is a key of it with a value. -/
theorem configLine_about (env : Files) (o : Overflow) (hl : lineSetting line = some c) :
    ∃ k : ConfigKey, k.setting = c ∧ ∃ arg, ∀ s, configLine env o line s = k.set env o arg s := by
  unfold lineSetting at hl
  split_ifs at hl with hskip
  split at hl
  · next word arg hwords =>
    obtain ⟨k, hk, rfl⟩ := Option.map_eq_some_iff.mp hl
    refine ⟨k, rfl, arg, fun s => ?_⟩
    rw [configLine_words hskip, hwords, configWords, if_neg (by simp)]
    simp only [hk]
  · cases hl

/-- A line about nothing does nothing, if it can be read, and ends the server otherwise. -/
theorem configLine_idle (env : Files) (o : Overflow) (hl : lineSetting line = none) :
    (Readable line ∧ ∀ s, configLine env o line s = .ok s) ∨
      (¬ Readable line ∧ ∀ s, configLine env o line s = .error .undefined) := by
  by_cases hskip : Skipped line
  · exact .inl ⟨.inl hskip, configLine_skipped hskip⟩
  rw [lineSetting, if_neg hskip] at hl
  simp only [Readable, hskip, false_or, configLine_words hskip]
  generalize words space (cstr line) = argv at hl ⊢
  match argv, hl with
  | [], _ => exact .inr ⟨fun h => h.1 rfl, fun s => rfl⟩
  | [word], _ => exact .inl ⟨by simp, fun s => rfl⟩
  | [word, arg], hl =>
    refine .inl ⟨by simp, fun s => ?_⟩
    rw [configWords, if_neg (by simp)]
    simp only [Option.map_eq_none_iff.mp hl]
  | a :: b :: d :: ws, _ =>
    by_cases hlen : 10 ≤ (a :: b :: d :: ws).length
    · exact .inr ⟨fun h => absurd h.2 (Nat.not_lt.mpr hlen), fun s => if_pos hlen⟩
    · exact .inl ⟨⟨by simp, Nat.not_le.mp hlen⟩, fun s => if_neg hlen⟩

/-- **Each line is about one setting**, or about none. -/
theorem separate_lines (env : Files) (o : Overflow) :
    Separate (fun s line => configLine env o line s) lineSetting Setting.Agree where
  equiv := Setting.equivalence
  frame := by
    intro s line s' c hs hne
    cases hl : lineSetting line with
    | none =>
      rcases configLine_idle env o hl with ⟨-, hidle⟩ | ⟨-, hend⟩
      · obtain rfl := Except.ok.inj ((hidle s).symm.trans hs)
        exact c.equivalence.refl s
      · cases (hend s).symm.trans hs
    | some c' =>
      obtain ⟨k, rfl, arg, hset⟩ := configLine_about env o hl
      rw [hset] at hs
      exact k.set_frame hs fun heq => hne (by rw [hl, heq])
  part := by
    intro c s t line s' hl hst hs
    obtain ⟨k, rfl, arg, hset⟩ := configLine_about env o hl
    simp only [hset] at hs ⊢
    exact k.set_part hst hs
  idle := by
    intro s t line s' hl hs
    rcases configLine_idle env o hl with ⟨-, hidle⟩ | ⟨-, hend⟩
    · exact ⟨t, hidle t⟩
    · cases (hend s).symm.trans hs

/-! ### Files -/

theorem configLines_eq_foldlM (lines : List Bytes) (s : KvServer) :
    configLines env o lines s = lines.foldlM (fun s line => configLine env o line s) s := by
  induction lines generalizing s with
  | nil => rfl
  | cons line lines ih =>
    rw [configLines, List.foldlM_cons]
    cases configLine env o line s with
    | error e => rfl
    | ok s => exact ih s

/-- The lines of a text that are about a setting, as `fgets` reads them. -/
def linesAbout (c : Setting) (text : Bytes) : List Bytes := stepsAbout lineSetting c (linesOf newline 1023 text)

/-- Every line can be read. -/
def AllReadable (text : Bytes) : Prop := ∀ line ∈ linesOf newline 1023 text, Readable line

instance : DecidablePred AllReadable := fun _ => inferInstanceAs (Decidable (∀ _ ∈ _, _))

/-- **The order of the lines**: two files whose lines can be read, and which have the same lines
about each setting, in the same order, load the same configuration, or none. -/
theorem order_of_lines {text text' : Bytes} (hread : AllReadable text) (hread' : AllReadable text')
    (hsame : ∀ c, linesAbout c text = linesAbout c text') (s s' : KvServer) :
    loadServerConfig env o (some text) s = .ok s' ↔ loadServerConfig env o (some text') s = .ok s' := by
  have hidle : ∀ {text}, AllReadable text → ∀ line ∈ linesOf newline 1023 text, lineSetting line = none →
      ∃ t t', configLine env o line t = .ok t' := by
    intro text hread line hin hl
    rcases configLine_idle env o hl with ⟨-, hidle⟩ | ⟨hno, -⟩
    · exact ⟨s, s, hidle s⟩
    · exact absurd (hread line hin) hno
  rw [loadServerConfig, loadServerConfig, configLines_eq_foldlM, configLines_eq_foldlM]
  exact ⟨(separate_lines env o).congr (fun s t => eq_of_agree) hsame (hidle hread'),
    (separate_lines env o).congr (fun s t => eq_of_agree) (fun c => (hsame c).symm) (hidle hread)⟩

/-- The mode may be set before the port or between its two lines, with a comment or without. -/
theorem order_of_lines_port : loadServerConfig ⟨fun _ _ => true, fun _ p => some p⟩ .undefined
    (some (ascii "server-mode MEM-LRU\nport 7\nport 8\n")) {} = .ok { port := 8, cacheMode := modeMemLru } := by
  have hread : AllReadable (ascii "port 7\n# the mode\nserver-mode MEM-LRU\nport 8\n") := by decide
  have hload : loadServerConfig ⟨fun _ _ => true, fun _ p => some p⟩ .undefined
      (some (ascii "port 7\n# the mode\nserver-mode MEM-LRU\nport 8\n")) {} = .ok { port := 8, cacheMode := modeMemLru } :=
    rfl
  exact (order_of_lines hread (by decide) (fun c => by cases c <;> decide) {} _).mp hload

end EmbeddedKv.Config
