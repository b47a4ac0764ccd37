import EmbeddedKv.Flash.Record
import EmbeddedKv.Library.Text
import EmbeddedKv.Net.Commands

/-!
# The configuration file

`loadServerConfig` of `util.c`. The file is read line by line into a buffer of 1024 bytes; a
line is cut at its spaces, and if it has two words the first one is a key, which is found
whatever its case.

## The model

A text is its bytes, and a line is what one `fgets` has read, with the newline if there is
one. It is a string, so it ends before its first zero byte. No key looks at more than its
value, and each has its own way with the newline behind it: `server-mode`,
`flashcache-mode`, `log-level`, `flashcache-dir` and `logfile` cut off the last byte of the
value, whatever it is, `atoi` does not see it, and `server-dir` keeps it.

`Files` answers `fopen` and `chdir` for the working directory and a path. What a product of
signed integers is that overflows is up to the compiler (`Overflow`). `chmalloc` returns a
pointer into a block, so a `logfile` that is freed has to be `NULL`.

Left out are the messages, and `exit` has no code.
-/

namespace EmbeddedKv.Config

open EmbeddedKv.Library EmbeddedKv.Flash

/-! ### The server -/

/-- `MODE_ONLY_FLASH`. -/
def modeOnlyFlash : UInt32 := 1

/-- `MODE_MEM_FIFO`. -/
def modeMemFifo : UInt32 := 2

/-- `MODE_MEM_LRU`. -/
def modeMemLru : UInt32 := 3

/-- `MODE_FLASH_WRITEBUFFER`. -/
def modeFlashWritebuffer : UInt32 := 4

/-- `LOG_DEBUG`. -/
def logDebug : UInt32 := 0

/-- `LOG_NOTICE`. -/
def logNotice : UInt32 := 1

/-- What the configuration sets: fields of `kvServer`, and the working directory. -/
structure KvServer where
  /-- `port`. -/
  port : ℤ := 0
  /-- `maxmemory`. -/
  maxmemory : UInt64 := 0
  /-- `flashCache_dir`; `none` for `NULL`. -/
  flashCacheDir : Option Bytes := none
  /-- `flashCache_size`. -/
  flashCacheSize : UInt64 := 0
  /-- `flashCache_writebuffer_size`. -/
  flashCacheWritebufferSize : UInt64 := 0
  /-- `flashCache_file_size`. -/
  flashCacheFileSize : UInt32 := 0
  /-- `cache_mode`. -/
  cacheMode : UInt32 := 0
  /-- `flashcache_mode`. -/
  flashcacheMode : UInt32 := 0
  /-- `verbosity`. -/
  verbosity : UInt32 := 0
  /-- `logfile`; `none` for `NULL`. -/
  logfile : Option Bytes := none
  /-- The working directory. -/
  cwd : Bytes := []
  deriving DecidableEq, Repr

/-- The file system, in a working directory. -/
structure Files where
  /-- `fopen(path, "a")` succeeds. -/
  canAppend : Bytes → Bytes → Bool
  /-- `chdir(path)`: the new working directory. -/
  chdir : Bytes → Bytes → Option Bytes

/-- What becomes of a product of signed integers that is out of range. -/
inductive Overflow where
  /-- Nothing is said about it. -/
  | undefined
  /-- It wraps around. -/
  | wraps
  deriving DecidableEq, Repr

/-- `strcasecmp(s, t) == 0`. -/
def strcasecmp (s t : Bytes) : Bool := s.map Net.toLower == t.map Net.toLower

/-! ### Sizes -/

/-- `a * b`, for signed integers of the given width. -/
def signedMul (o : Overflow) (width : ℕ) (a b : ℤ) : Except Stop ℤ :=
  if -2 ^ (width - 1) ≤ a * b ∧ a * b < 2 ^ (width - 1) then .ok (a * b)
  else
    match o with
    | .undefined => .error .undefined
    | .wraps => .ok ((a * b).bmod (2 ^ width))

/-- A product of several factors, from left to right. -/
def signedProduct (o : Overflow) (width : ℕ) : ℤ → List ℤ → Except Stop ℤ
  | n, [] => .ok n
  | n, m :: ms =>
    match signedMul o width n m with
    | .error e => .error e
    | .ok p => signedProduct o width p ms

/-- The keys for sizes. -/
inductive SizeKey where
  /-- `memcache-size-mb`. -/
  | memcacheSizeMb
  /-- `memcache-size-kb`. -/
  | memcacheSizeKb
  /-- `flashcache-size-mb`. -/
  | flashcacheSizeMb
  /-- `flashcache-size-kb`. -/
  | flashcacheSizeKb
  /-- `flashcache-file-size-kb`. -/
  | flashcacheFileSizeKb
  /-- `flashcache-file-size-mb`. -/
  | flashcacheFileSizeMb
  /-- `flashcache-writebuffer-size-b`. -/
  | flashcacheWritebufferSizeB
  deriving DecidableEq, Repr

namespace SizeKey

/-- The key as it is written. -/
def name : SizeKey → Bytes
  | memcacheSizeMb => ascii "memcache-size-mb"
  | memcacheSizeKb => ascii "memcache-size-kb"
  | flashcacheSizeMb => ascii "flashcache-size-mb"
  | flashcacheSizeKb => ascii "flashcache-size-kb"
  | flashcacheFileSizeKb => ascii "flashcache-file-size-kb"
  | flashcacheFileSizeMb => ascii "flashcache-file-size-mb"
  | flashcacheWritebufferSizeB => ascii "flashcache-writebuffer-size-b"

/-- The width of the factors: `1024L` is a `long`, and `1024` an `int`. -/
def width : SizeKey → ℕ
  | memcacheSizeMb | memcacheSizeKb | flashcacheSizeMb | flashcacheSizeKb => 64
  | flashcacheFileSizeKb | flashcacheFileSizeMb | flashcacheWritebufferSizeB => 32

/-- What the number is multiplied by. -/
def factors : SizeKey → List ℤ
  | memcacheSizeMb | flashcacheSizeMb | flashcacheFileSizeMb => [1024, 1024]
  | memcacheSizeKb | flashcacheSizeKb | flashcacheFileSizeKb => [1024]
  | flashcacheWritebufferSizeB => []

/-- The product is stored in its field, which is unsigned. -/
def store (k : SizeKey) (p : ℤ) (s : KvServer) : KvServer :=
  match k with
  | memcacheSizeMb | memcacheSizeKb => { s with maxmemory := UInt64.ofInt p }
  | flashcacheSizeMb | flashcacheSizeKb => { s with flashCacheSize := UInt64.ofInt p }
  | flashcacheFileSizeKb | flashcacheFileSizeMb => { s with flashCacheFileSize := UInt32.ofInt p }
  | flashcacheWritebufferSizeB => { s with flashCacheWritebufferSize := UInt64.ofInt p }

/-- The value of the field. -/
def field (k : SizeKey) (s : KvServer) : ℕ :=
  match k with
  | memcacheSizeMb | memcacheSizeKb => s.maxmemory.toNat
  | flashcacheSizeMb | flashcacheSizeKb => s.flashCacheSize.toNat
  | flashcacheFileSizeKb | flashcacheFileSizeMb => s.flashCacheFileSize.toNat
  | flashcacheWritebufferSizeB => s.flashCacheWritebufferSize.toNat

/-- The value of a key for a size. The field is unsigned when it is tested. -/
def set (o : Overflow) (k : SizeKey) (arg : Bytes) (s : KvServer) : Except Stop KvServer :=
  match signedProduct o k.width (atoi arg) k.factors with
  | .error e => .error e
  | .ok p => if k.field (k.store p s) ≤ 0 then .error .exit else .ok (k.store p s)

end SizeKey

/-! ### Keys -/

/-- The value of the first name that a text is. -/
def pick (names : List (String × UInt32)) (arg : Bytes) : Option UInt32 :=
  (names.find? fun name => strcasecmp arg (ascii name.1)).map Prod.snd

/-- The names for `server-mode`. -/
def serverModes : List (String × UInt32) :=
  [("ONLY-FLASH", modeOnlyFlash), ("MEM-FIFO", modeMemFifo), ("MEM-LRU", modeMemLru)]

/-- The name for `flashcache-mode`. -/
def flashcacheModes : List (String × UInt32) := [("FLASH-WRITEBUFFER", modeFlashWritebuffer)]

/-- The names for `log-level`. -/
def logLevels : List (String × UInt32) := [("notice", logNotice), ("debug", logDebug)]

/-- The keys. -/
inductive ConfigKey where
  /-- `port`. -/
  | port
  /-- A size. -/
  | size (k : SizeKey)
  /-- `flashcache-dir`. -/
  | flashcacheDir
  /-- `server-mode`. -/
  | serverMode
  /-- `flashcache-mode`. -/
  | flashcacheMode
  /-- `log-level`. -/
  | logLevel
  /-- `logfile`. -/
  | logfile
  /-- `server-dir`. -/
  | serverDir
  deriving DecidableEq, Repr

namespace ConfigKey

/-- The key as it is written. -/
def name : ConfigKey → Bytes
  | port => ascii "port"
  | size k => k.name
  | flashcacheDir => ascii "flashcache-dir"
  | serverMode => ascii "server-mode"
  | flashcacheMode => ascii "flashcache-mode"
  | logLevel => ascii "log-level"
  | logfile => ascii "logfile"
  | serverDir => ascii "server-dir"

/-- The keys in the order in which they are tried. -/
def all : List ConfigKey :=
  [port, size .memcacheSizeMb, size .memcacheSizeKb, flashcacheDir, size .flashcacheSizeMb, size .flashcacheSizeKb,
    size .flashcacheFileSizeKb, size .flashcacheFileSizeMb, size .flashcacheWritebufferSizeB, serverMode,
    flashcacheMode, logLevel, logfile, serverDir]

/-- The key of a line, by its first word. -/
def ofWord (word : Bytes) : Option ConfigKey := all.find? fun k => strcasecmp word k.name

/-- The value of a key. -/
def set (env : Files) (o : Overflow) (k : ConfigKey) (arg : Bytes) (s : KvServer) : Except Stop KvServer :=
  match k with
  | port => .ok { s with port := atoi arg }
  | size k => k.set o arg s
  | flashcacheDir => .ok { s with flashCacheDir := some arg.dropLast }
  | serverMode => .ok { s with cacheMode := (pick serverModes arg.dropLast).getD s.cacheMode }
  | flashcacheMode => .ok { s with flashcacheMode := (pick flashcacheModes arg.dropLast).getD s.flashcacheMode }
  | logLevel => .ok { s with verbosity := (pick logLevels arg.dropLast).getD s.verbosity }
  | logfile =>
    -- `free(server.logfile)`
    if s.logfile ≠ none then .error .undefined
    else if arg.dropLast = [] ∨ env.canAppend s.cwd arg.dropLast then .ok { s with logfile := some arg.dropLast }
    else .error .exit
  | serverDir =>
    match env.chdir s.cwd arg with
    | none => .error .exit
    | some cwd => .ok { s with cwd }

end ConfigKey

/-! ### The file -/

/-- `' '`. -/
abbrev space : UInt8 := 32

/-- `'#'`. -/
abbrev hash : UInt8 := 35

/-- `'\n'`. -/
abbrev newline : UInt8 := 10

/-- The words of a line are looked at. `argv` has ten places, of which the last one used
holds `NULL`. -/
def configWords (env : Files) (o : Overflow) (argv : List Bytes) (s : KvServer) : Except Stop KvServer :=
  if 10 ≤ argv.length then .error .undefined
  else
    match argv with
    -- `strcasecmp` of `NULL`
    | [] => .error .undefined
    | [word, arg] =>
      match ConfigKey.ofWord word with
      | none => .ok s
      | some k => k.set env o arg s
    | _ => .ok s

/-- The body of the loop, for what `fgets` has read. -/
def configLine (env : Files) (o : Overflow) (line : Bytes) (s : KvServer) : Except Stop KvServer :=
  let buf := cstr line
  if buf.head? = some hash ∨ buf.head? = none ∨ buf.head? = some newline then .ok s
  else configWords env o (words space buf) s

/-- The loop over the lines. -/
def configLines (env : Files) (o : Overflow) : List Bytes → KvServer → Except Stop KvServer
  | [], s => .ok s
  | line :: lines, s =>
    match configLine env o line s with
    | .error e => .error e
    | .ok s => configLines env o lines s

/-- **`loadServerConfig(filename)`**, for the text of the file if it can be opened. -/
def loadServerConfig (env : Files) (o : Overflow) (text : Option Bytes) (s : KvServer) : Except Stop KvServer :=
  match text with
  | none => .error .exit
  | some text => configLines env o (linesOf newline 1023 text) s

variable {env : Files} {o : Overflow}

/-- A newline is white space, but no space and no zero byte. -/
theorem newline_plain : IsSpace newline ∧ newline ≠ space ∧ NulFree [newline] := by decide

theorem configLines_append (lines lines' : List Bytes) (s : KvServer) : configLines env o (lines ++ lines') s =
    match configLines env o lines s with
    | .error e => .error e
    | .ok s => configLines env o lines' s := by
  induction lines generalizing s with
  | nil => rfl
  | cons line lines ih =>
    rw [List.cons_append, configLines, configLines]
    cases configLine env o line s with
    | error e => rfl
    | ok s => exact ih s

/-- One line is the body of the loop. -/
theorem configLines_singleton (line : Bytes) (s : KvServer) : configLines env o [line] s = configLine env o line s := by
  rw [configLines]
  cases configLine env o line s <;> rfl

/-- A file is read line by line. -/
theorem loadServerConfig_append {before : List Bytes} (hbefore : ∀ l ∈ before, newline ∉ l ∧ l.length < 1023)
    (rest : Bytes) (s : KvServer) : loadServerConfig env o (some (before.flatMap (· ++ [newline]) ++ rest)) s =
      match loadServerConfig env o (some (before.flatMap (· ++ [newline]))) s with
      | .error e => .error e
      | .ok s => loadServerConfig env o (some rest) s := by
  have hlines := linesOf_flatMap hbefore []
  rw [List.append_nil, linesOf_nil, List.append_nil] at hlines
  rw [loadServerConfig, loadServerConfig, linesOf_flatMap hbefore, hlines, configLines_append]
  rfl

/-- A line of a file that has no other, with or without a newline. -/
theorem loadServerConfig_line {line : Bytes} (hline : newline ∉ line) (hlen : line.length < 1023) (s : KvServer) :
    loadServerConfig env o (some line) s = configLine env o line s ∧
      loadServerConfig env o (some (line ++ [newline])) s = configLine env o (line ++ [newline]) s := by
  constructor
  · rw [loadServerConfig, linesOf_last hline hlen]
    split_ifs with hnil
    · rw [hnil]
      rfl
    · exact configLines_singleton line s
  · rw [loadServerConfig, linesOf_cons hline hlen]
    exact configLines_singleton _ s

/-- A line of two words whose first one is a key. -/
theorem configLine_pair {k : ConfigKey} {word arg : Bytes} (hkey : ConfigKey.ofWord word = some k)
    (hword : space ∉ word ∧ NulFree word) (hfirst : ∀ b ∈ word.head?, b ≠ hash ∧ b ≠ newline) (hword0 : word ≠ [])
    (harg : space ∉ arg ∧ NulFree arg) (harg0 : arg ≠ []) (s : KvServer) :
    configLine env o (word ++ space :: arg) s = k.set env o arg s := by
  have hspace : NulFree (space :: arg) := List.forall_mem_cons.mpr ⟨by decide, harg.2⟩
  have hbuf : cstr (word ++ space :: arg) = word ++ space :: arg := cstr_eq_self (hword.2.append hspace)
  obtain ⟨b, bs, rfl⟩ := List.exists_cons_of_ne_nil hword0
  obtain ⟨hhash, hnewline⟩ := hfirst b rfl
  rw [configLine, hbuf, if_neg, words_pair hword.1 harg.1 hword0 harg0, configWords, if_neg (by simp)]
  · simp only [hkey]
  · simp [hhash, hnewline]

/-- Every key is found by its name. -/
theorem ofWord_name (k : ConfigKey) : ConfigKey.ofWord k.name = some k := by
  cases k with
  | size k => cases k <;> rfl
  | _ => rfl

/-- Names are words. -/
theorem name_word (k : ConfigKey) : space ∉ k.name ∧ k.name ≠ [] := by
  cases k with
  | size k => cases k <;> decide
  | _ => decide

end EmbeddedKv.Config
