import RenaProxy.Config.Layout
import Mathlib.Logic.Function.Basic

/-!
# Loading the configuration

`config_set` looks for the setting of a section and a key and hands the value to its parser, which
may refuse it. By `configLoad_eq_zero_iff` a file is loaded if and only if it has the layout of the
last module, each setting is then what the last of its accepted entries says, or its default, and
what is logged are the refused entries, each with its line.
-/
namespace RenaProxy

/-- `MAX_FILENAME` -/
def maxFilename : ℕ := 5120

/-- What `snprintf` leaves of a string, or of bytes of the file, in a `char[size]`. -/
def snprintf (size : ℕ) (bytes : List UInt8) : List UInt8 :=
  (bytes.takeWhile (· ≠ 0)).take (size - 1)

/-- Whether `strncasecmp` is 0. -/
def strncasecmp (a b : List UInt8) (n : ℕ) : Bool :=
  (a.take n).map tolower = (b.take n).map tolower

/-- The numbers of C: `strtod`, `temp <= 0`, `(int) temp` (also of a number that is no `int`),
`(float) temp`, and 0.1. -/
structure Numbers (D F : Type) where
  strtod : List UInt8 → D
  leZero : D → Bool
  toInt : D → ℤ
  toFloat : D → F
  tenth : F

/-- `facilitynames` and `prioritynames` of `syslog.h`. -/
structure SyslogNames where
  facilitynames : List (List UInt8 × ℤ)
  prioritynames : List (List UInt8 × ℤ)

/-- `struct config_rena` -/
structure ConfigRena (F : Type) where
  certificateFile : List UInt8
  certificateKey : List UInt8
  databaseDirectory : List UInt8
  databaseSuffix : List UInt8
  serverBind : List UInt8
  serverPortHttp : ℤ
  serverPortHttps : ℤ
  loggingFacility : ℤ
  loggingOptions : ℤ
  loggingMinimum : ℤ
  poolMinimum : ℤ
  poolMaximum : ℤ
  poolReapTime : ℤ
  poolAddictive : F
  deriving DecidableEq, Repr

/-! ## Parsers

They change nothing before they refuse a value, which is `none`. -/

section Parsers
variable {D F : Type} (num : Numbers D F) (names : SyslogNames) (inout : ConfigRena F)
  (value : List UInt8)

/-- The parsers of a number, up to the field that is set. -/
def parseNumber (set : D → ConfigRena F) : Option (ConfigRena F) :=
  let temp := num.strtod value
  if num.leZero temp then none else some (set temp)

def parseCertificateFile : Option (ConfigRena F) :=
  some { inout with certificateFile := snprintf maxFilename value }

def parseCertificateKey : Option (ConfigRena F) :=
  some { inout with certificateKey := snprintf maxFilename value }

def parseDatabaseDirectory : Option (ConfigRena F) :=
  some { inout with databaseDirectory := snprintf maxFilename value }

/-- What `parse_database_suffix` asks for. -/
def isSuffix : Bool := value.head? = some 46 ∧ 46 ∈ value.tail

def parseDatabaseSuffix : Option (ConfigRena F) :=
  if isSuffix value then some { inout with databaseSuffix := snprintf maxStr value } else none

def parsePoolMinimum : Option (ConfigRena F) :=
  parseNumber num value fun temp => { inout with poolMinimum := num.toInt temp }

def parsePoolMaximum : Option (ConfigRena F) :=
  parseNumber num value fun temp => { inout with poolMaximum := num.toInt temp }

def parsePoolReapTime : Option (ConfigRena F) :=
  parseNumber num value fun temp => { inout with poolReapTime := num.toInt temp }

def parsePoolAddictive : Option (ConfigRena F) :=
  parseNumber num value fun temp => { inout with poolAddictive := num.toFloat temp }

def parseServerHttp : Option (ConfigRena F) :=
  parseNumber num value fun temp => { inout with serverPortHttp := num.toInt temp }

def parseServerHttps : Option (ConfigRena F) :=
  parseNumber num value fun temp => { inout with serverPortHttps := num.toInt temp }

/-- An address has a `.` or a `:`. -/
def isAddress : Bool := 46 ∈ value ∨ 58 ∈ value

def parseServerBind : Option (ConfigRena F) :=
  if isAddress value then some { inout with serverBind := snprintf maxStr value } else none

/-- `syslog_lookup`; a table ends with a negative value. -/
def syslogLookup : List (List UInt8 × ℤ) → Option ℤ
  | [] => none
  | (name, val) :: table =>
      if val < 0 then none
      else if strncasecmp name value (max (min name.length maxStr) (min value.length maxStr)) then
        some val
      else syslogLookup table

def parseLoggingFacility : Option (ConfigRena F) :=
  (syslogLookup value names.facilitynames).map fun temp => { inout with loggingFacility := temp }

def parseLoggingMinimum : Option (ConfigRena F) :=
  (syslogLookup value names.prioritynames).map fun temp => { inout with loggingMinimum := temp }

def parseLoggingOptions : Option (ConfigRena F) :=
  parseNumber num value fun temp => { inout with loggingOptions := num.toInt temp }

end Parsers

/-! ## Settings -/

/-- The parsers that `all_settings` names. -/
inductive Setting
  | certificateFile
  | certificateKey
  | databaseDirectory
  | databaseSuffix
  | loggingFacility
  | loggingMinimum
  | loggingOptions
  | serverHttps
  | serverHttp
  | serverBind
  | poolReapTime
  | poolAddictive
  | poolMinimum
  | poolMaximum
  deriving DecidableEq, Repr

/-- A row of `all_settings`. -/
structure SettingRow where
  sec : List UInt8
  key : List UInt8
  fnc : Setting
  deriving DecidableEq, Repr

/-- `all_settings` -/
def allSettings : List SettingRow :=
  [⟨chars "certificate", chars "file", .certificateFile⟩,
    ⟨chars "certificate", chars "key", .certificateKey⟩,
    ⟨chars "database", chars "directory", .databaseDirectory⟩,
    ⟨chars "database", chars "suffix", .databaseSuffix⟩,
    ⟨chars "logging", chars "facility", .loggingFacility⟩,
    ⟨chars "logging", chars "minimum", .loggingMinimum⟩,
    ⟨chars "logging", chars "options", .loggingOptions⟩,
    ⟨chars "server", chars "port_https", .serverHttps⟩,
    ⟨chars "server", chars "port_http", .serverHttp⟩,
    ⟨chars "server", chars "bind", .serverBind⟩,
    ⟨chars "pool", chars "reap_time", .poolReapTime⟩,
    ⟨chars "pool", chars "addictive", .poolAddictive⟩,
    ⟨chars "pool", chars "minimum", .poolMinimum⟩,
    ⟨chars "pool", chars "maximum", .poolMaximum⟩]

/-- The section need only begin with the name in the table; the key is all of it. -/
def SettingRow.applies (row : SettingRow) (sec key : List UInt8) : Bool :=
  strncasecmp row.sec sec (min row.sec.length maxStr) ∧
    strncasecmp row.key key (max (min row.key.length maxStr) (min key.length maxStr))

/-- Where the loop of `config_set` stops. -/
def selected (sec key : List UInt8) : Option Setting :=
  (allSettings.find? fun row => row.applies sec key).map (·.fnc)

/-- An entry that `config_load` logs. -/
structure Refusal where
  sec : List UInt8
  key : List UInt8
  line : ℕ
  deriving DecidableEq, Repr

/-- Of a key shorter than the tables' buffer the case alone is left out. -/
theorem SettingRow.applies_iff {row : SettingRow} (hrow : row ∈ allSettings) {sec key : List UInt8}
    (hkey : key.length ≤ maxStr) : row.applies sec key ↔
      row.sec <+: sec.map tolower ∧ row.key = key.map tolower := by
  have htable : ∀ row ∈ allSettings, row.sec.map tolower = row.sec ∧
      row.key.map tolower = row.key ∧ row.sec.length ≤ maxStr ∧ row.key.length ≤ maxStr := by
    decide
  obtain ⟨hsec, hlower, hsecs, hkeys⟩ := htable row hrow
  rw [SettingRow.applies, decide_eq_true_eq, strncasecmp, strncasecmp, decide_eq_true_eq,
    decide_eq_true_eq, Nat.min_eq_left hsecs, Nat.min_eq_left hkeys, Nat.min_eq_left hkey,
    List.take_length, List.take_of_length_le (Nat.le_max_left _ _),
    List.take_of_length_le (Nat.le_max_right _ _), hsec, hlower, List.map_take,
    List.prefix_iff_eq_take]

/-- No two rows apply to one section and key. -/
theorem eq_of_applies {row row' : SettingRow} (hrow : row ∈ allSettings)
    (hrow' : row' ∈ allSettings) {sec : List UInt8} (hsec : row.sec <+: sec)
    (hsec' : row'.sec <+: sec) (hkey : row.key = row'.key) : row = row' := by
  have htable : ∀ row ∈ allSettings, ∀ row' ∈ allSettings, row.key = row'.key →
      row.sec <+: row'.sec ∨ row'.sec <+: row.sec → row = row' := by
    decide
  exact htable row hrow row' hrow' hkey (List.prefix_or_prefix_of_prefix hsec hsec')

/-- The row is the only one, so their order does not matter. -/
theorem selected_eq_some_iff {sec key : List UInt8} (hkey : key.length ≤ maxStr) {st : Setting} :
    selected sec key = some st ↔ ∃ row ∈ allSettings, row.fnc = st ∧
      row.sec <+: sec.map tolower ∧ row.key = key.map tolower := by
  rw [selected, Option.map_eq_some_iff]
  constructor
  · rintro ⟨row, hfind, rfl⟩
    have hrow := List.mem_of_find?_eq_some hfind
    have happlies : row.applies sec key := by simpa using List.find?_some hfind
    exact ⟨row, hrow, rfl, (SettingRow.applies_iff hrow hkey).mp happlies⟩
  · rintro ⟨row, hrow, rfl, hsec, hname⟩
    have happlies := (SettingRow.applies_iff hrow hkey).mpr ⟨hsec, hname⟩
    cases hfind : allSettings.find? fun row => row.applies sec key with
    | none => exact absurd happlies (List.find?_eq_none.mp hfind row hrow)
    | some row' =>
        have hrow' := List.mem_of_find?_eq_some hfind
        have happlies' : row'.applies sec key := by simpa using List.find?_some hfind
        obtain ⟨hsec', hname'⟩ := (SettingRow.applies_iff hrow' hkey).mp happlies'
        obtain rfl := eq_of_applies hrow hrow' hsec hsec' (hname.trans hname'.symm)
        exact ⟨row, rfl, rfl⟩

section Load
variable {D F : Type} (num : Numbers D F) (names : SyslogNames)

/-- The parser of a row. -/
def Setting.parser : Setting → ConfigRena F → List UInt8 → Option (ConfigRena F)
  | .certificateFile => parseCertificateFile
  | .certificateKey => parseCertificateKey
  | .databaseDirectory => parseDatabaseDirectory
  | .databaseSuffix => parseDatabaseSuffix
  | .loggingFacility => parseLoggingFacility names
  | .loggingMinimum => parseLoggingMinimum names
  | .loggingOptions => parseLoggingOptions num
  | .serverHttps => parseServerHttps num
  | .serverHttp => parseServerHttp num
  | .serverBind => parseServerBind
  | .poolReapTime => parsePoolReapTime num
  | .poolAddictive => parsePoolAddictive num
  | .poolMinimum => parsePoolMinimum num
  | .poolMaximum => parsePoolMaximum num

/-- `config_set` -/
def configSet (inout : ConfigRena F) (sec key value : List UInt8) : Option (ConfigRena F) :=
  (selected sec key).bind fun st => st.parser num names inout value

/-- `default_config`; the numbers of syslog are those of `LOG_LOCAL7`, `LOG_PID`, `LOG_CONS`,
`LOG_NDELAY`, `LOG_PERROR` and `LOG_INFO`. -/
def defaultConfig : ConfigRena F where
  certificateFile := chars "/etc/rena/certificate.pem"
  certificateKey := chars "/etc/rena/certificate.pem"
  databaseDirectory := chars "/etc/rena/dbs"
  databaseSuffix := chars ".example.org"
  serverBind := chars "127.0.0.1"
  serverPortHttp := 80
  serverPortHttps := 443
  loggingFacility := 23 * 8
  loggingOptions := 1 + 2 + 8 + 32
  loggingMinimum := 6
  poolMinimum := 4
  poolMaximum := 16
  poolReapTime := 1800
  poolAddictive := num.tenth

/-- The body of the loops of `config_load`. -/
def loadEntry (s : ConfigRena F × List Refusal) (e : IniEntry) : ConfigRena F × List Refusal :=
  let sec := snprintf maxStr e.sec
  let key := snprintf maxStr e.key
  let value := snprintf maxFilename e.value
  ((configSet num names s.1 sec key value).getD s.1,
    if (configSet num names s.1 sec key value).isSome then s.2 else s.2 ++ [⟨sec, key, e.line⟩])

variable (files : List UInt8 → Option (List UInt8))

/-- `ini_open`, up to what fails for want of memory, and for files below 2 GiB: the size has to be
an `int`. -/
def iniOpen (file : List UInt8) : Option (List UInt8) := (files file).filter (· ≠ [])

/-- `config_load`. What is logged before it fails is left out. -/
def configLoad (inout : Option (Option (ConfigRena F))) (filename : Option (List UInt8)) :
    Except IniError (ℤ × Option (ConfigRena F) × List Refusal) :=
  match inout with
  | none => .ok (-1, none, [])
  | some (some config) => .ok (-1, some config, [])
  | some none =>
      let file := filename.getD []
      if file = [] then .ok (0, some (defaultConfig num), [])
      else
        match iniOpen files file with
        | none => .ok (-3, none, [])
        | some buf =>
            match readSections (loadEntry num names) (buf.length + 1) ⟨[], buf⟩
                (defaultConfig num, []) with
            | .ok (config, refusals) => .ok (0, some config, refusals)
            | .error .eio => .ok (-4, none, [])
            | .error e => .error e

end Load

/-! ## A configuration as a function

What the parsers make of a value does not depend on the configuration, and the configuration is
what its settings are. -/

/-- What a setting is. -/
inductive SettingValue (F : Type)
  | text (bytes : List UInt8)
  | int (n : ℤ)
  | float (x : F)
  deriving DecidableEq, Repr

/-- Assignments in their order: what is last assigned stays. -/
theorem foldl_update_apply {κ ν ε : Type} [DecidableEq κ] (assign : ε → Option (κ × ν))
    (entries : List ε) (f : κ → ν) (k : κ) :
    entries.foldl (fun f e => (assign e).elim f fun p => Function.update f p.1 p.2) f k =
      ((entries.filterMap fun e => (assign e).bind fun p =>
        if p.1 = k then some p.2 else none).getLast?).getD (f k) := by
  induction entries using List.reverseRecOn with
  | nil => rfl
  | append_singleton entries e ih =>
      rw [List.foldl_append, List.filterMap_append, List.foldl_cons, List.foldl_nil]
      cases h : assign e with
      | none => simp [h, ih]
      | some p =>
          by_cases hk : p.1 = k
          · subst hk
            simp [h]
          · simp [h, hk, ih, Function.update_of_ne (Ne.symm hk)]

section View
variable {D F : Type} {num : Numbers D F} {names : SyslogNames}

def ConfigRena.view (config : ConfigRena F) : Setting → SettingValue F
  | .certificateFile => .text config.certificateFile
  | .certificateKey => .text config.certificateKey
  | .databaseDirectory => .text config.databaseDirectory
  | .databaseSuffix => .text config.databaseSuffix
  | .loggingFacility => .int config.loggingFacility
  | .loggingMinimum => .int config.loggingMinimum
  | .loggingOptions => .int config.loggingOptions
  | .serverHttps => .int config.serverPortHttps
  | .serverHttp => .int config.serverPortHttp
  | .serverBind => .text config.serverBind
  | .poolReapTime => .int config.poolReapTime
  | .poolAddictive => .float config.poolAddictive
  | .poolMinimum => .int config.poolMinimum
  | .poolMaximum => .int config.poolMaximum

theorem view_injective : Function.Injective (ConfigRena.view (F := F)) := by
  intro a b h
  have hview : ∀ st, a.view st = b.view st := congrFun h
  cases a
  cases b
  have h₁ := hview .certificateFile
  have h₂ := hview .certificateKey
  have h₃ := hview .databaseDirectory
  have h₄ := hview .databaseSuffix
  have h₅ := hview .loggingFacility
  have h₆ := hview .loggingMinimum
  have h₇ := hview .loggingOptions
  have h₈ := hview .serverHttps
  have h₉ := hview .serverHttp
  have h₁₀ := hview .serverBind
  have h₁₁ := hview .poolReapTime
  have h₁₂ := hview .poolAddictive
  have h₁₃ := hview .poolMinimum
  have h₁₄ := hview .poolMaximum
  simp_all [ConfigRena.view]

variable (num names) in
/-- What a value is for a setting, if it is accepted. -/
def Setting.parse (value : List UInt8) : Setting → Option (SettingValue F)
  | .certificateFile | .certificateKey | .databaseDirectory =>
      some (.text (snprintf maxFilename value))
  | .databaseSuffix => if isSuffix value then some (.text (snprintf maxStr value)) else none
  | .loggingFacility => (syslogLookup value names.facilitynames).map .int
  | .loggingMinimum => (syslogLookup value names.prioritynames).map .int
  | .serverBind => if isAddress value then some (.text (snprintf maxStr value)) else none
  | .poolAddictive =>
      if num.leZero (num.strtod value) then none
      else some (.float (num.toFloat (num.strtod value)))
  | .loggingOptions | .serverHttps | .serverHttp | .poolReapTime | .poolMinimum | .poolMaximum =>
      if num.leZero (num.strtod value) then none else some (.int (num.toInt (num.strtod value)))

theorem map_view_ite {c : Prop} [Decidable c] (config : ConfigRena F) (v : SettingValue F)
    {f : Setting → SettingValue F} {st : Setting} (h : config.view = Function.update f st v) :
    (if c then some config else none).map ConfigRena.view =
      (if c then some v else none).map (Function.update f st) := by
  split_ifs
  · exact congrArg some h
  · rfl

/-- Each parser sets its own setting to what the value is for it, and nothing else. -/
theorem map_view_parsed (st : Setting) (inout : ConfigRena F) (value : List UInt8) :
    (st.parser num names inout value).map ConfigRena.view =
      (st.parse num names value).map (Function.update inout.view st) := by
  cases st with
  | certificateFile | certificateKey | databaseDirectory =>
      exact congrArg some (funext fun st' => by cases st' <;> rfl)
  | databaseSuffix | serverBind =>
      exact map_view_ite _ _ (funext fun st' => by cases st' <;> rfl)
  | loggingFacility =>
      rw [Setting.parser, parseLoggingFacility, Setting.parse, Option.map_map, Option.map_map]
      exact congrArg (Option.map · _) (funext fun _ => funext fun st' => by cases st' <;> rfl)
  | loggingMinimum =>
      rw [Setting.parser, parseLoggingMinimum, Setting.parse, Option.map_map, Option.map_map]
      exact congrArg (Option.map · _) (funext fun _ => funext fun st' => by cases st' <;> rfl)
  | _ =>
      simp only [Setting.parser, parseLoggingOptions, parseServerHttps, parseServerHttp,
        parsePoolReapTime, parsePoolAddictive, parsePoolMinimum, parsePoolMaximum, parseNumber,
        Setting.parse]
      split_ifs
      · rfl
      · exact congrArg some (funext fun st' => by cases st' <;> rfl)

variable (num names) in
/-- The setting that an entry is for, and its value, if it is accepted. -/
def IniEntry.assign (e : IniEntry) : Option (Setting × SettingValue F) :=
  (selected (snprintf maxStr e.sec) (snprintf maxStr e.key)).bind fun st =>
    (st.parse num names (snprintf maxFilename e.value)).map (st, ·)

/-- What `config_load` logs of an entry that is refused. -/
def IniEntry.refusal (e : IniEntry) : Refusal :=
  ⟨snprintf maxStr e.sec, snprintf maxStr e.key, e.line⟩

variable (num names) in
theorem map_view_configSet (inout : ConfigRena F) (e : IniEntry) :
    (configSet num names inout (snprintf maxStr e.sec) (snprintf maxStr e.key)
        (snprintf maxFilename e.value)).map ConfigRena.view =
      (e.assign num names).map fun p => Function.update inout.view p.1 p.2 := by
  rw [configSet, IniEntry.assign]
  cases selected (snprintf maxStr e.sec) (snprintf maxStr e.key) with
  | none => rfl
  | some st =>
      rw [Option.bind_some, Option.bind_some, map_view_parsed, Option.map_map]
      rfl

variable (num names) in
/-- A round of the loops, seen as an assignment that may be refused. -/
theorem loadEntry_cases (s : ConfigRena F × List Refusal) (e : IniEntry) :
    (e.assign num names = none ∧ loadEntry num names s e = (s.1, s.2 ++ [e.refusal])) ∨
      ∃ p, e.assign num names = some p ∧
        (loadEntry num names s e).1.view = Function.update s.1.view p.1 p.2 ∧
        (loadEntry num names s e).2 = s.2 := by
  have hview := map_view_configSet num names s.1 e
  rw [loadEntry]
  cases hassign : e.assign num names with
  | none =>
      rw [hassign, Option.map_none, Option.map_eq_none_iff] at hview
      rw [hview]
      exact .inl ⟨rfl, rfl⟩
  | some p =>
      rw [hassign, Option.map_some] at hview
      obtain ⟨config, hset, hconfig⟩ := Option.map_eq_some_iff.mp hview
      rw [hset]
      exact .inr ⟨p, rfl, hconfig, rfl⟩

variable (num names) in
theorem view_foldl_loadEntry (entries : List IniEntry) (s : ConfigRena F × List Refusal) :
    (entries.foldl (loadEntry num names) s).1.view =
        entries.foldl (fun f e => (e.assign num names).elim f fun p => Function.update f p.1 p.2)
          s.1.view ∧
      (entries.foldl (loadEntry num names) s).2 =
        s.2 ++ (entries.filter fun e => (e.assign num names).isNone).map IniEntry.refusal := by
  induction entries generalizing s with
  | nil => exact ⟨rfl, (List.append_nil _).symm⟩
  | cons e entries ih =>
      obtain ⟨hview, hlog⟩ := ih (loadEntry num names s e)
      rw [List.foldl_cons, hview, hlog, List.foldl_cons]
      rcases loadEntry_cases num names s e with ⟨hassign, hentry⟩ |
        ⟨p, hassign, hconfig, hrefused⟩
      · rw [hentry, hassign, List.filter_cons_of_pos (by rw [hassign]; rfl), List.map_cons,
          List.append_assoc]
        exact ⟨rfl, rfl⟩
      · rw [hconfig, hrefused, hassign, List.filter_cons_of_neg (by simp [hassign])]
        exact ⟨rfl, rfl⟩

end View

/-! ## Loading -/

section Main
variable {D F : Type} {num : Numbers D F} {names : SyslogNames}
  {files : List UInt8 → Option (List UInt8)} {c : UInt8} {name : List UInt8}

/-- An entry is for a setting when its section begins with that of the setting and its key is that
of the setting, up to the case and to what `snprintf` leaves of them. -/
def IniEntry.IsFor (e : IniEntry) (st : Setting) : Prop :=
  ∃ row ∈ allSettings, row.fnc = st ∧ row.sec <+: (snprintf maxStr e.sec).map tolower ∧
    row.key = (snprintf maxStr e.key).map tolower

instance (e : IniEntry) (st : Setting) : Decidable (e.IsFor st) :=
  inferInstanceAs (Decidable (∃ row ∈ allSettings, _))

variable (num names) in
/-- The value that an entry gives a setting, if it is for it and accepted. -/
def Setting.given (st : Setting) (e : IniEntry) : Option (SettingValue F) :=
  if e.IsFor st then st.parse num names (snprintf maxFilename e.value) else none

variable (num names) in
/-- An entry that gives no setting a value. -/
def IniEntry.refused (e : IniEntry) : Bool :=
  allSettings.all fun row => (row.fnc.given num names e).isNone

theorem length_snprintf_le (size : ℕ) (bytes : List UInt8) : (snprintf size bytes).length ≤ size :=
  (List.length_take_le _ _).trans (Nat.sub_le _ _)

theorem isFor_iff {e : IniEntry} {st : Setting} :
    e.IsFor st ↔ selected (snprintf maxStr e.sec) (snprintf maxStr e.key) = some st :=
  (selected_eq_some_iff (length_snprintf_le _ _)).symm

theorem given_eq_assign (e : IniEntry) (st : Setting) : st.given num names e =
    (e.assign num names).bind fun p => if p.1 = st then some p.2 else none := by
  rw [Setting.given, IniEntry.assign]
  simp only [isFor_iff]
  cases selected (snprintf maxStr e.sec) (snprintf maxStr e.key) with
  | none => rfl
  | some st' =>
      rw [Option.bind_some, Option.bind_map]
      by_cases hst : st' = st
      · subst hst
        simp
      · simp [hst]

theorem refused_eq_isNone (e : IniEntry) :
    e.refused num names = (e.assign num names).isNone := by
  have hrows : ∀ st : Setting, ∃ row ∈ allSettings, row.fnc = st := by
    intro st
    cases st <;> decide
  rw [IniEntry.refused, Bool.eq_iff_iff, List.all_eq_true]
  simp only [given_eq_assign]
  constructor
  · intro hall
    cases hassign : e.assign num names with
    | none => rfl
    | some p =>
        obtain ⟨row, hrow, hfnc⟩ := hrows p.1
        have hnone := hall row hrow
        simp [hassign, hfnc] at hnone
  · intro hnone row _
    rw [Option.isNone_iff_eq_none] at hnone
    rw [hnone]
    rfl

theorem iniOpen_eq_some_iff {file buf : List UInt8} :
    iniOpen files file = some buf ↔ files file = some buf ∧ buf ≠ [] := by
  rw [iniOpen, Option.filter_eq_some_iff]
  simp

variable (num names) in
/-- What loading a file is. -/
theorem configLoad_cases (files : List UInt8 → Option (List UInt8)) (c : UInt8)
    (name : List UInt8) :
    (iniOpen files (c :: name) = none ∧
      configLoad num names files (some none) (some (c :: name)) = .ok (-3, none, [])) ∨
    ∃ buf, iniOpen files (c :: name) = some buf ∧
      configLoad num names files (some none) (some (c :: name)) =
        match readSections (loadEntry num names) (buf.length + 1) ⟨[], buf⟩
            (defaultConfig num, []) with
        | .ok (config, refusals) => .ok (0, some config, refusals)
        | .error .eio => .ok (-4, none, [])
        | .error e => .error e := by
  have hname : (c :: name) ≠ [] := List.cons_ne_nil _ _
  rw [configLoad]
  dsimp only [Option.getD_some]
  rw [if_neg hname]
  cases h : iniOpen files (c :: name) with
  | none => exact .inl ⟨rfl, rfl⟩
  | some buf => exact .inr ⟨buf, rfl, rfl⟩

theorem configLoad_eq_ok_iff {config : Option (ConfigRena F)} {refusals : List Refusal} :
    configLoad num names files (some none) (some (c :: name)) = .ok (0, config, refusals) ↔
      ∃ buf config', (files (c :: name) = some buf ∧ buf ≠ []) ∧ config = some config' ∧
        readSections (loadEntry num names) (buf.length + 1) ⟨[], buf⟩ (defaultConfig num, []) =
          .ok (config', refusals) := by
  constructor
  · intro hok
    rcases configLoad_cases num names files c name with ⟨-, hload⟩ | ⟨buf, hopen, hload⟩
    · rw [hload] at hok
      cases hok
    · rw [hload] at hok
      split at hok
      · rename_i config' refusals' hread
        obtain ⟨rfl, rfl⟩ : some config' = config ∧ refusals' = refusals := by simpa using hok
        exact ⟨buf, config', iniOpen_eq_some_iff.mp hopen, rfl, hread⟩
      · simp at hok
      · cases hok
  · rintro ⟨buf, config', hfile, rfl, hread⟩
    have hopen := iniOpen_eq_some_iff.mpr hfile
    rcases configLoad_cases num names files c name with ⟨hnone, -⟩ | ⟨buf', hopen', hload⟩
    · cases hnone.symm.trans hopen
    · obtain rfl := Option.some.inj (hopen'.symm.trans hopen)
      rw [hload, hread]

/-- Only `-EIO` is told to the caller. -/
theorem configLoad_eq_error_iff {e : IniError} (he : e ≠ .eio) :
    configLoad num names files (some none) (some (c :: name)) = .error e ↔
      ∃ buf, (files (c :: name) = some buf ∧ buf ≠ []) ∧
        readSections (loadEntry num names) (buf.length + 1) ⟨[], buf⟩ (defaultConfig num, []) =
          .error e := by
  constructor
  · intro herror
    rcases configLoad_cases num names files c name with ⟨-, hload⟩ | ⟨buf, hopen, hload⟩
    · cases hload.symm.trans herror
    · rw [hload] at herror
      split at herror
      · cases herror
      · cases herror
      · rename_i e' _ hread
        obtain rfl : e' = e := Except.error.inj herror
        exact ⟨buf, iniOpen_eq_some_iff.mp hopen, hread⟩
  · rintro ⟨buf, hfile, hread⟩
    have hopen := iniOpen_eq_some_iff.mpr hfile
    rcases configLoad_cases num names files c name with ⟨hnone, -⟩ | ⟨buf', hopen', hload⟩
    · cases hnone.symm.trans hopen
    · obtain rfl := Option.some.inj (hopen'.symm.trans hopen)
      rw [hload, hread]
      cases e with
      | eio => exact absurd rfl he
      | _ => rfl

/-- The entries of a file, one after the other: each setting is what the last accepted one says that
is for it. -/
theorem view_loaded (entries : List IniEntry) (st : Setting) :
    (entries.foldl (loadEntry num names) (defaultConfig num, [])).1.view st =
      ((entries.filterMap (st.given num names)).getLast?).getD ((defaultConfig num).view st) := by
  rw [(view_foldl_loadEntry num names entries _).1,
    foldl_update_apply (IniEntry.assign num names) entries _ st,
    ← (funext fun e => given_eq_assign e st : st.given num names = _)]

/-- The others are logged. -/
theorem refusals_loaded (entries : List IniEntry) :
    (entries.foldl (loadEntry num names) (defaultConfig num, [])).2 =
      (entries.filter (IniEntry.refused num names)).map IniEntry.refusal := by
  rw [(view_foldl_loadEntry num names entries _).2, List.nil_append,
    ← (funext refused_eq_isNone : IniEntry.refused num names = _)]

/-- A file is loaded when it has the layout of a configuration file. Each setting is what the last
accepted entry says that is for it, or its default; the others are logged. -/
theorem configLoad_eq_zero_iff {config : Option (ConfigRena F)} {refusals : List Refusal} :
    configLoad num names files (some none) (some (c :: name)) = .ok (0, config, refusals) ↔
      ∃ g sections, IsGap g ∧ AreSections sections ∧
        files (c :: name) = some (g ++ sectionsText sections) ∧
        (∃ config', config = some config' ∧ ∀ st : Setting, config'.view st =
          (((sectionEntries g sections).filterMap (st.given num names)).getLast?).getD
            ((defaultConfig num).view st)) ∧
        refusals = ((sectionEntries g sections).filter (IniEntry.refused num names)).map
          IniEntry.refusal := by
  rw [configLoad_eq_ok_iff]
  constructor
  · rintro ⟨buf, config', ⟨hfile, hbuf⟩, rfl, hread⟩
    obtain ⟨g, sections, hg, hsections, rfl, hfold⟩ := (readSections_eq_ok_iff _ _ hbuf).mp hread
    obtain ⟨rfl, rfl⟩ := Prod.mk.inj hfold
    exact ⟨g, sections, hg, hsections, hfile, ⟨_, rfl, view_loaded _⟩, refusals_loaded _⟩
  · rintro ⟨g, sections, hg, hsections, hfile, ⟨config', rfl, hview⟩, rfl⟩
    have hbuf : g ++ sectionsText sections ≠ [] := by
      obtain ⟨text, htext⟩ := hsections.exists_text
      rw [htext]
      exact List.append_ne_nil_of_right_ne_nil g (List.cons_ne_nil _ _)
    have hconfig : ((sectionEntries g sections).foldl (loadEntry num names)
        (defaultConfig num, [])).1 = config' :=
      view_injective (funext fun st => (view_loaded _ st).trans (hview st).symm)
    refine ⟨_, config', ⟨hfile, hbuf⟩, rfl,
      (readSections_eq_ok_iff _ _ hbuf).mpr ⟨g, sections, hg, hsections, rfl, ?_⟩⟩
    rw [← hconfig, ← refusals_loaded]

/-- A `[` at the very end of a file is followed by a read behind the memory that holds it. -/
theorem configLoad_eq_overread_iff :
    configLoad num names files (some none) (some (c :: name)) = .error .overread ↔
      ∃ g sections, IsGap g ∧ AreClosed sections ∧
        files (c :: name) = some (g ++ (sectionsText sections ++ [91])) := by
  rw [configLoad_eq_error_iff (by decide)]
  constructor
  · rintro ⟨buf, ⟨hfile, hbuf⟩, hread⟩
    obtain ⟨g, sections, hg, hclosed, rfl⟩ := (readSections_eq_overread_iff _ _ hbuf).mp hread
    exact ⟨g, sections, hg, hclosed, hfile⟩
  · rintro ⟨g, sections, hg, hclosed, hfile⟩
    have hbuf : g ++ (sectionsText sections ++ [91]) ≠ [] :=
      List.append_ne_nil_of_right_ne_nil g
        (List.append_ne_nil_of_right_ne_nil _ (List.cons_ne_nil _ _))
    exact ⟨_, ⟨hfile, hbuf⟩,
      (readSections_eq_overread_iff _ _ hbuf).mpr ⟨g, sections, hg, hclosed, rfl⟩⟩

/-- The bound on the rounds is never reached, whatever the file. -/
theorem configLoad_ne_rounds :
    configLoad num names files (some none) (some (c :: name)) ≠ .error .rounds := by
  intro herror
  obtain ⟨buf, hfile, hread⟩ := (configLoad_eq_error_iff (by decide)).mp herror
  exact readSections_ne_rounds hfile.2 hread

end Main

end RenaProxy
