import EmbeddedKv.Config.Sizes

/-!
# The last line

A configuration file whose last line has no newline is compared with the same file with one.

## What is proved

`last_line_iff`: the two set the same fields exactly if the newline does not matter to what
the last line says (`NewlineHarmless`). It does not matter to `port` and the sizes. The
value of `flashcache-dir` loses its last byte without one, and a mode or a level is not
found. A line that ends in a space has one word more with a newline.
-/

namespace EmbeddedKv.Config

open EmbeddedKv.Library EmbeddedKv.Flash

variable {env : Files} {o : Overflow} {s : KvServer} {v w : Bytes} {r r' : Except Stop KvServer}

/-! ### Fields -/

/-- The modes, the level, the directories and the numbers. -/
def KvServer.fields (s : KvServer) : KvServer := { s with logfile := none }

/-- **The same fields are set**, or both end in the same way. -/
def Same (r r' : Except Stop KvServer) : Prop := r.map KvServer.fields = r'.map KvServer.fields

@[simp] theorem same_ok_ok {s s' : KvServer} : Same (.ok s) (.ok s') ↔ s.fields = s'.fields := by
  simp [Same, Except.map]

@[simp] theorem same_error_ok {e : Stop} : ¬ Same (.error e) (.ok s) := by simp [Same, Except.map]

@[simp] theorem same_ok_error {e : Stop} : ¬ Same (.ok s) (.error e) := by simp [Same, Except.map]

@[simp] theorem Same.rfl : Same r r := Eq.refl _

theorem Same.comm : Same r r' ↔ Same r' r := eq_comm

/-! ### Modes and levels -/

/-- A text is none of the names, or the one for what is set already. -/
def Keeps (names : List (String × UInt32)) (cur : UInt32) (v : Bytes) : Prop := ∀ m, pick names v = some m → m = cur

/-- No name is another one without its last byte. -/
def Apart (names : List (String × UInt32)) : Prop :=
  ∀ a ∈ names, ∀ b ∈ names, ((ascii a.1).map Net.toLower).dropLast ≠ (ascii b.1).map Net.toLower

instance (names : List (String × UInt32)) : Decidable (Apart names) :=
  inferInstanceAs (Decidable (∀ a ∈ names, ∀ b ∈ names, _))

theorem serverModes_apart : Apart serverModes := by decide

theorem flashcacheModes_apart : Apart flashcacheModes := by decide

theorem logLevels_apart : Apart logLevels := by decide

/-- A name that is found. -/
theorem exists_of_pick {names : List (String × UInt32)} {m : UInt32} (h : pick names v = some m) :
    ∃ a ∈ names, v.map Net.toLower = (ascii a.1).map Net.toLower := by
  obtain ⟨a, hfind, -⟩ := Option.map_eq_some_iff.mp h
  have hcmp := List.find?_some hfind
  exact ⟨a, List.mem_of_find?_eq_some hfind, beq_iff_eq.mp hcmp⟩

theorem getD_pick_eq_iff {names : List (String × UInt32)} {cur : UInt32} :
    (pick names v).getD cur = cur ↔ Keeps names cur v := by
  rw [Keeps]
  cases pick names v <;> simp

/-- **A value and the value without its last byte** are the same to a mode exactly if
neither changes it: they are not both names. -/
theorem getD_pick_dropLast_iff {names : List (String × UInt32)} (hapart : Apart names) {cur : UInt32} :
    (pick names w.dropLast).getD cur = (pick names w).getD cur ↔ Keeps names cur w.dropLast ∧ Keeps names cur w := by
  rw [← getD_pick_eq_iff, ← getD_pick_eq_iff]
  cases hcut : pick names w.dropLast with
  | none => simp [eq_comm]
  | some m =>
    cases hwhole : pick names w with
    | none => simp
    | some m' =>
      obtain ⟨a, ha, hwa⟩ := exists_of_pick hwhole
      obtain ⟨b, hb, hwb⟩ := exists_of_pick hcut
      rw [List.map_dropLast, hwa] at hwb
      exact absurd hwb (hapart a ha b hb)

/-! ### Keys -/

/-- A log file that can be opened, or none. -/
def Opens (env : Files) (s : KvServer) (v : Bytes) : Prop := v = [] ∨ env.canAppend s.cwd v

/-- **A value changes no field.** -/
def ConfigKey.Idle (env : Files) (o : Overflow) (k : ConfigKey) (v : Bytes) (s : KvServer) : Prop :=
  match k with
  | port => atoi v = s.port
  | size k => ∃ p, signedProduct o k.width (atoi v) k.factors = .ok p ∧ p % 2 ^ k.bits = k.field s ∧ k.field s ≠ 0
  | flashcacheDir => s.flashCacheDir = some v.dropLast
  | serverMode => Keeps serverModes s.cacheMode v.dropLast
  | flashcacheMode => Keeps flashcacheModes s.flashcacheMode v.dropLast
  | logLevel => Keeps logLevels s.verbosity v.dropLast
  | logfile => s.logfile = none ∧ Opens env s v.dropLast
  | serverDir => env.chdir s.cwd v = some s.cwd

/-- **A newline behind a value does not matter.** -/
def ConfigKey.Alike (env : Files) (k : ConfigKey) (w : Bytes) (s : KvServer) : Prop :=
  match k with
  | port | size _ => True
  | flashcacheDir => False
  | serverMode => Keeps serverModes s.cacheMode w.dropLast ∧ Keeps serverModes s.cacheMode w
  | flashcacheMode => Keeps flashcacheModes s.flashcacheMode w.dropLast ∧ Keeps flashcacheModes s.flashcacheMode w
  | logLevel => Keeps logLevels s.verbosity w.dropLast ∧ Keeps logLevels s.verbosity w
  | logfile => s.logfile = none → (Opens env s w.dropLast ↔ Opens env s w)
  | serverDir => env.chdir s.cwd w = env.chdir s.cwd (w ++ [newline])

/-- A size is stored in its field only. -/
theorem SizeKey.fields_store_iff {k : SizeKey} {p : ℤ} : (k.store p s).fields = s.fields ↔ p % 2 ^ k.bits = k.field s := by
  rw [← k.field_store p s, Int.natCast_inj]
  constructor
  · intro h
    have hfields : ∀ s : KvServer, k.field s.fields = k.field s := fun s => by cases k <;> rfl
    rw [← hfields s, ← h, hfields]
  · intro h
    cases k
    all_goals
      simp only [field, store, UInt64.toNat_inj, UInt32.toNat_inj] at h
      simp only [store, h]

/-- **A value changes no field** if it is idle. -/
theorem ConfigKey.same_ok_iff {k : ConfigKey} : Same (k.set env o v s) (.ok s) ↔ k.Idle env o v s := by
  cases k with
  | port => simp [set, Idle, KvServer.fields]
  | size k =>
    rw [set, Idle]
    cases hp : signedProduct o k.width (atoi v) k.factors with
    | error e => simp [SizeKey.set, hp]
    | ok p =>
      rw [SizeKey.set_eq hp]
      split_ifs with hzero
      · refine iff_of_false same_error_ok ?_
        rintro ⟨q, hq, hfield, hne⟩
        cases hq
        omega
      · rw [same_ok_ok, SizeKey.fields_store_iff]
        constructor
        · exact fun h => ⟨p, rfl, h, by omega⟩
        · rintro ⟨q, hq, hfield, -⟩
          cases hq
          exact hfield
  | flashcacheDir => simp [set, Idle, KvServer.fields, eq_comm]
  | serverMode => simp [set, Idle, KvServer.fields, getD_pick_eq_iff]
  | flashcacheMode => simp [set, Idle, KvServer.fields, getD_pick_eq_iff]
  | logLevel => simp [set, Idle, KvServer.fields, getD_pick_eq_iff]
  | logfile =>
    rw [set, Idle, Opens]
    split_ifs with hlog hopen
    · exact iff_of_false same_error_ok (fun h => hlog h.1)
    · exact iff_of_true (same_ok_ok.mpr rfl) ⟨not_not.mp hlog, hopen⟩
    · exact iff_of_false same_error_ok (fun h => hopen h.2)
  | serverDir =>
    rw [set, Idle]
    cases env.chdir s.cwd v with
    | none => simp
    | some cwd => simp [KvServer.fields]

/-- **A newline behind a value** does not change what it sets if they are alike. -/
theorem ConfigKey.same_newline_iff {k : ConfigKey} (hw : w ≠ []) :
    Same (k.set env o w s) (k.set env o (w ++ [newline]) s) ↔ k.Alike env w s := by
  have hspace : IsSpace newline := newline_plain.1
  cases k with
  | port => simp [set, Alike, atoi_append_space w hspace]
  | size k => simp [set, SizeKey.set, Alike, atoi_append_space w hspace]
  | flashcacheDir =>
    have hcut : w.dropLast ≠ w := fun h => by
      have := congrArg List.length h
      rw [List.length_dropLast] at this
      have := List.length_pos_of_ne_nil hw
      omega
    simp [set, Alike, KvServer.fields, hcut]
  | serverMode => simp [set, Alike, KvServer.fields, getD_pick_dropLast_iff serverModes_apart]
  | flashcacheMode => simp [set, Alike, KvServer.fields, getD_pick_dropLast_iff flashcacheModes_apart]
  | logLevel => simp [set, Alike, KvServer.fields, getD_pick_dropLast_iff logLevels_apart]
  | logfile =>
    rw [set, set, Alike, List.dropLast_concat]
    by_cases hlog : s.logfile = none
    · rw [if_neg (not_not.mpr hlog), if_neg (not_not.mpr hlog), Opens, Opens]
      split_ifs with hcut hwhole hwhole
      · exact iff_of_true (same_ok_ok.mpr rfl) fun _ => iff_of_true hcut hwhole
      · exact iff_of_false same_ok_error fun h => hwhole ((h hlog).mp hcut)
      · exact iff_of_false same_error_ok fun h => hcut ((h hlog).mpr hwhole)
      · exact iff_of_true Same.rfl fun _ => iff_of_false hcut hwhole
    · rw [if_pos hlog, if_pos hlog]
      exact iff_of_true Same.rfl fun h => absurd h hlog
  | serverDir =>
    rw [set, set, Alike]
    cases env.chdir s.cwd w <;> cases env.chdir s.cwd (w ++ [newline]) <;> simp [KvServer.fields]

/-! ### Lines -/

/-- A newline that is a word of its own does not matter: the words before it do nothing, and
it does nothing behind them. -/
def AloneHarmless (env : Files) (o : Overflow) (s : KvServer) : List Bytes → Prop
  | [] => False
  | [word] => ∀ k, ConfigKey.ofWord word = some k → k.Idle env o [newline] s
  | [word, arg] => ∀ k, ConfigKey.ofWord word = some k → k.Idle env o arg s
  | argv => argv.length ≠ 9

/-- A newline that belongs to the last word does not matter. -/
def BehindHarmless (env : Files) (s : KvServer) : List Bytes → Prop
  | [word, arg] => ∀ k, ConfigKey.ofWord word = some k → k.Alike env arg s
  | _ => True

/-- **A newline does not matter** to the last line. -/
def NewlineHarmless (env : Files) (o : Overflow) (s : KvServer) (last : Bytes) : Prop :=
  0 ∈ last ∨ last = [] ∨ last.head? = some hash ∨
    if last.getLast? = some space then AloneHarmless env o s (words space last)
    else BehindHarmless env s (words space last)

theorem configWords_pair {word arg : Bytes} : configWords env o [word, arg] s =
    match ConfigKey.ofWord word with
    | none => .ok s
    | some k => k.set env o arg s := rfl

/-- Nothing is set by a line that has not two words. -/
theorem configWords_of_length_ne {argv : List Bytes} (h0 : argv ≠ []) (h2 : argv.length ≠ 2) :
    configWords env o argv s = if 10 ≤ argv.length then .error .undefined else .ok s := by
  match argv with
  | [] => exact absurd rfl h0
  | [_] => rfl
  | [_, _] => exact absurd rfl h2
  | _ :: _ :: _ :: _ => rfl

/-- Two words that change no field. -/
theorem same_ok_pair_iff {word arg : Bytes} : Same (configWords env o [word, arg] s) (.ok s) ↔
    ∀ k, ConfigKey.ofWord word = some k → k.Idle env o arg s := by
  rw [configWords_pair]
  cases hk : ConfigKey.ofWord word with
  | none => simp
  | some k =>
    simp only [ConfigKey.same_ok_iff, Option.some.injEq, forall_eq']

/-- **A newline after a space**. -/
theorem same_words_alone {argv : List Bytes} :
    Same (configWords env o argv s) (configWords env o (argv ++ [[newline]]) s) ↔ AloneHarmless env o s argv := by
  match argv with
  | [] => exact iff_of_false same_error_ok id
  | [word] =>
    have hone : configWords env o [word] s = .ok s := rfl
    rw [hone, AloneHarmless, Same.comm]
    exact same_ok_pair_iff
  | [word, arg] =>
    have hthree : configWords env o ([word, arg] ++ [[newline]]) s = .ok s := rfl
    rw [hthree, AloneHarmless]
    exact same_ok_pair_iff
  | word :: arg :: more :: argv =>
    have hmany : AloneHarmless env o s (word :: arg :: more :: argv) ↔ (word :: arg :: more :: argv).length ≠ 9 := Iff.rfl
    rw [configWords_of_length_ne (by simp) (by simp), configWords_of_length_ne (by simp) (by simp), hmany,
      List.length_append, List.length_singleton]
    split_ifs with hlt hlt' hlt'
    · exact iff_of_true Same.rfl (by omega)
    · omega
    · exact iff_of_false same_ok_error (by omega)
    · exact iff_of_true Same.rfl (by omega)

/-- **A newline after the last word**. -/
theorem same_words_behind {argv : List Bytes} (hw : w ≠ []) :
    Same (configWords env o (argv ++ [w]) s) (configWords env o (argv ++ [w ++ [newline]]) s) ↔
      BehindHarmless env s (argv ++ [w]) := by
  match argv with
  | [] => exact iff_of_true Same.rfl trivial
  | [word] =>
    rw [List.singleton_append, List.singleton_append, configWords_pair, configWords_pair, BehindHarmless]
    cases hk : ConfigKey.ofWord word with
    | none => simp
    | some k =>
      simp only [ConfigKey.same_newline_iff hw, Option.some.injEq, forall_eq']
  | word :: arg :: argv =>
    refine iff_of_true ?_ ?_
    · rw [configWords_of_length_ne (by simp) (by simp), configWords_of_length_ne (by simp) (by simp),
        List.length_append, List.length_append]
      exact Same.rfl
    · cases argv <;> trivial

/-- **A newline behind the last line** does not change what it sets if it does not matter. -/
theorem same_line_iff {last : Bytes} (hlast : newline ∉ last) (hne : last ≠ []) :
    Same (configLine env o last s) (configLine env o (last ++ [newline]) s) ↔ NewlineHarmless env o s last := by
  rw [NewlineHarmless]
  by_cases hnul : 0 ∈ last
  · rw [configLine, configLine, cstr_append_of_mem hnul]
    exact iff_of_true Same.rfl (.inl hnul)
  have hfree : NulFree last := fun b hb h => hnul (h ▸ hb)
  obtain ⟨b, bs, hcons⟩ := List.exists_cons_of_ne_nil hne
  have hhead : last.head? = some b := by rw [hcons, List.head?_cons]
  have hhead' : (last ++ [newline]).head? = some b := by rw [hcons, List.cons_append, List.head?_cons]
  have hb : b ≠ newline := fun h => hlast (by rw [hcons, h]; exact List.mem_cons_self)
  rw [configLine, configLine, cstr_eq_self hfree, cstr_eq_self (hfree.append newline_plain.2.2), hhead, hhead']
  by_cases hhash : b = hash
  · rw [if_pos (.inl (by rw [hhash])), if_pos (.inl (by rw [hhash]))]
    exact iff_of_true Same.rfl (.inr (.inr (.inl (by rw [hhash]))))
  have hrest : ¬ (some b = some hash ∨ some b = none ∨ some b = some newline) := by simp [hhash, hb]
  rw [if_neg hrest, if_neg hrest]
  simp only [hnul, hne, Option.some.injEq, hhash, false_or]
  have hsep := newline_plain.2.1
  split_ifs with hspace
  · rw [words, words, wordsFrom_concat_of_open hsep (.inl hspace)]
    exact same_words_alone
  · have hclosed : ¬ EndsOpen space [] last := by
      rintro (h | ⟨h, -⟩)
      · exact hspace h
      · exact hne h
    obtain ⟨ws, w, hws, hws'⟩ := wordsFrom_concat_of_closed hsep hclosed
    have hw : w ≠ [] := ne_nil_of_mem_wordsFrom (by rw [hws]; exact List.mem_append_right _ (List.mem_singleton_self w))
    rw [words, words, hws, hws']
    exact same_words_behind hw

/-- The lines of a text that have a newline, with it. -/
def endedLines (text : Bytes) : Bytes := (cutLines newline text).1.flatMap (· ++ [newline])

/-- The last line of a text, if it has no newline. -/
def lastLine (text : Bytes) : Bytes := (cutLines newline text).2

/-- The lines with a newline are read first. -/
theorem loadServerConfig_cut {text : Bytes} (hbefore : ∀ l ∈ (cutLines newline text).1, l.length < 1023) (rest : Bytes) :
    loadServerConfig env o (some (text ++ rest)) s = match loadServerConfig env o (some (endedLines text)) s with
      | .error e => .error e
      | .ok s => loadServerConfig env o (some (lastLine text ++ rest)) s := by
  obtain ⟨htext, hfree, -⟩ := cutLines_spec newline text
  calc loadServerConfig env o (some (text ++ rest)) s
      = loadServerConfig env o (some (endedLines text ++ (lastLine text ++ rest))) s := by
        rw [← List.append_assoc, endedLines, lastLine, htext]
    _ = _ := loadServerConfig_append (fun l hl => ⟨hfree l hl, hbefore l hl⟩) (lastLine text ++ rest) s

/-- **A newline at the end of a file** changes nothing exactly if it does not matter to the
last line, in the state in which the lines before it leave the server. -/
theorem last_line_iff {text : Bytes} (hbefore : ∀ l ∈ (cutLines newline text).1, l.length < 1023)
    (hlast : (lastLine text).length < 1023) {s₀ : KvServer} :
    Same (loadServerConfig env o (some text) s₀) (loadServerConfig env o (some (text ++ [newline])) s₀) ↔
      ∀ s, loadServerConfig env o (some (endedLines text)) s₀ = .ok s → NewlineHarmless env o s (lastLine text) := by
  have hopen : newline ∉ lastLine text := (cutLines_spec newline text).2.2
  have hread : loadServerConfig env o (some (text ++ [])) s₀ = _ := loadServerConfig_cut hbefore []
  rw [List.append_nil, List.append_nil] at hread
  rw [hread, loadServerConfig_cut hbefore]
  cases loadServerConfig env o (some (endedLines text)) s₀ with
  | error e => exact iff_of_true Same.rfl fun s h => by cases h
  | ok s =>
    have hload : loadServerConfig env o (some (lastLine text)) s = configLine env o (lastLine text) s ∧ _ :=
      loadServerConfig_line hopen hlast s
    simp only [hload.1, hload.2, Except.ok.injEq, forall_eq']
    by_cases hne : lastLine text = []
    · rw [hne]
      exact iff_of_true Same.rfl (.inr (.inl rfl))
    · exact same_line_iff hopen hne

/-- `port 7` is read with and without a newline. -/
theorem port_line_same : Same
    (loadServerConfig ⟨fun _ _ => true, fun _ p => some p⟩ .undefined (some (ascii "log-level debug\nport 7")) {})
    (loadServerConfig ⟨fun _ _ => true, fun _ p => some p⟩ .undefined
      (some (ascii "log-level debug\nport 7" ++ [newline])) {}) :=
  (last_line_iff (by decide) (by decide)).mpr fun _ _ => .inr (.inr (.inr (by
    intro k hk
    cases hk
    trivial)))

/-- Without a newline `server-mode MEM-LRU` asks for `MEM-LR`, and no mode is set. -/
theorem server_mode_line_differs : ¬ Same
    (loadServerConfig ⟨fun _ _ => true, fun _ p => some p⟩ .undefined (some (ascii "server-mode MEM-LRU")) {})
    (loadServerConfig ⟨fun _ _ => true, fun _ p => some p⟩ .undefined (some (ascii "server-mode MEM-LRU\n")) {}) := by
  have hcut : loadServerConfig ⟨fun _ _ => true, fun _ p => some p⟩ .undefined (some (ascii "server-mode MEM-LRU")) {} =
    .ok {} := rfl
  have hwhole : loadServerConfig ⟨fun _ _ => true, fun _ p => some p⟩ .undefined
    (some (ascii "server-mode MEM-LRU\n")) {} = .ok { cacheMode := modeMemLru } := rfl
  rw [hcut, hwhole, same_ok_ok]
  decide

end EmbeddedKv.Config
