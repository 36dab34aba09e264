import MarkupAudit.Proofs.CommandLine.Dotted
import MarkupAudit.Proofs.CommandLine.Values
import MarkupAudit.Proofs.Config.Loading
import MarkupAudit.Run

/-!
Where the configuration of a run comes from. Each list is what is given for it in the command line,
or else what it is set to in the file, or else its default; of the extensions the bare form is taken,
whichever they are (`resolved_of_load`). So points before them make no difference.
-/

namespace MarkupAudit

open CommandLine (Choices ValueOption valuesOf)

namespace Config

/-- What a key is set to in the file at a path; the fallback, if it is not there or there is no such
file. -/
def fileValue (fs : FileSystem) (path key : List Char) (fallback : List String) : List String :=
  match fs.readText path with
  | .error _ => fallback
  | .ok text => ((Toml.parse text).bind fun entries => entries.setting key fallback).getD fallback

/-- Of two texts both are configurations that differ in points before the extensions only, or
neither is one. -/
inductive RedottedResult : Except DecodeError Config → Except DecodeError Config → Prop where
  | ok {config config' : Config} (h : Redotted config config') :
      RedottedResult (.ok config) (.ok config')
  | error (first second : DecodeError) : RedottedResult (.error first) (.error second)

section Load

variable {fs fs' : FileSystem} {path path' text text' : List Char} {loaded : Loaded}

theorem normalized_default : default.normalized = default := by decide +kernel

theorem config_of_load (h : load fs path = .ok loaded) : loaded.config =
    ⟨(fileValue fs path "extensions".toList default.extensions).map bareExtension,
      fileValue fs path "exclude".toList default.exclude⟩ := by
  rw [fileValue, fileValue]
  cases hread : fs.readText path with
  | error cause =>
    by_cases hexists : fs.pathExists path = true
    · rw [load_of_unreadable hexists hread] at h
      cases h
    · have hconfig := load_of_missing (Bool.eq_false_iff.mpr hexists)
      rw [h] at hconfig
      exact (Except.ok.inj hconfig).trans normalized_default.symm
  | ok text =>
    obtain ⟨decoded, hdecoded, _⟩ := (load_eq_ok_iff hread).mp (congrArg (Except.map (·.config)) h)
    obtain ⟨entries, hparse⟩ := parse_of_decode hdecoded
    have hload := load_of_parse hread hparse
    dsimp only
    rw [hparse, Option.bind_some, Option.bind_some]
    split at hload
    · rename_i extensions exclude hextensions hexclude
      rw [hextensions, hexclude]
      rw [h] at hload
      exact Except.ok.inj hload
    · obtain ⟨span, got, wanted, herror⟩ := hload
      rw [h] at herror
      cases herror

/-- Both texts are loaded, and the same is, or neither. -/
theorem load_of_redottedResult (hread : fs.readText path = .ok text)
    (hread' : fs'.readText path' = .ok text') (h : RedottedResult (decode text) (decode text')) :
    match load fs path with
    | .ok loaded => ∃ loaded', load fs' path' = .ok loaded' ∧ loaded'.config = loaded.config
    | .error _ => ∃ error, load fs' path' = .error error := by
  rw [load_of_readText hread, load_of_readText hread']
  generalize decode text = first, decode text' = second at h
  cases h with
  | ok h => exact ⟨_, rfl, normalized_of_redotted h⟩
  | error first second => exact ⟨_, rfl⟩

/-- Documents that have the two lists are so related if they differ in points before the extensions,
however they are written. -/
theorem redottedResult_of_spelled {config config' : Config} {first first' second : List Char}
    (h : Redotted config config')
    (hfirst : Toml.SpelledEntry "extensions".toList config.extensions first)
    (hfirst' : Toml.SpelledEntry "extensions".toList config'.extensions first')
    (hsecond : Toml.SpelledEntry "exclude".toList config.exclude second) :
    RedottedResult (decode (first ++ second)) (decode (first' ++ second)) := by
  have hsecond' := hsecond
  rw [← h.exclude] at hsecond'
  rw [decode_of_spelled hfirst hsecond, decode_of_spelled hfirst' hsecond']
  exact .ok h

end Load

end Config

namespace Run

/-- A configuration as the command line and the file of configuration have it. -/
structure Resolved (fs : FileSystem) (args : List (List Char)) (file : List Char)
    (config : Config) : Prop where
  extensions : config.extensions = List.map Config.bareExtension
    (if valuesOf .ext false args = [] then
      Config.fileValue fs file "extensions".toList Config.default.extensions
    else (valuesOf .ext false args).map String.ofList)
  exclude : config.exclude =
    if valuesOf .exclude false args = [] then
      Config.fileValue fs file "exclude".toList Config.default.exclude
    else (valuesOf .exclude false args).map String.ofList
  bare : ∀ ext ∈ config.extensions, ext.toList.head? ≠ some '.'
  normalized : config.normalized = config

section Resolve

variable {fs : FileSystem} {args : List (List Char)} {path : List Char} {choices choices' : Choices}

theorem bare_of_mem_resolve {config : Config} {ext : String}
    (h : ext ∈ (resolve choices config).extensions) : ext.toList.head? ≠ some '.' := by
  obtain ⟨dotted, _, rfl⟩ := List.mem_map.mp h
  exact Config.head?_bareExtension dotted

theorem resolved_of_load (hparse : CommandLine.parse args = .audit path choices)
    {loaded : Config.Loaded} (hload : Config.load fs (configPath choices) = .ok loaded) :
    Resolved fs args (configPath choices) (resolve choices loaded.config) where
  extensions := by
    have hgiven : choices.extensions = valuesOf .ext false args :=
      CommandLine.listed_of_parse .ext hparse
    rw [← hgiven, Config.config_of_load hload, resolve, Config.normalized]
    simp only [List.isEmpty_iff]
    split
    · rw [List.map_map]
      exact List.map_congr_left fun ext _ => Config.bareExtension_bareExtension ext
    · rfl
  exclude := by
    have hgiven : choices.exclude = valuesOf .exclude false args :=
      CommandLine.listed_of_parse .exclude hparse
    rw [← hgiven, Config.config_of_load hload, resolve, Config.normalized]
    simp only [List.isEmpty_iff]
  bare ext := bare_of_mem_resolve
  normalized := Config.normalized_normalized _

theorem map_bareExtension_strings {extensions extensions' : List (List Char)}
    (h : List.Forall₂ Config.IsDotted extensions extensions') :
    (extensions'.map String.ofList).map Config.bareExtension =
      (extensions.map String.ofList).map Config.bareExtension := by
  apply Config.map_bareExtension
  rw [List.forall₂_map_left_iff, List.forall₂_map_right_iff]
  simpa only [String.toList_ofList] using h

theorem resolve_of_redotted (h : CommandLine.Redotted choices choices') (config : Config) :
    resolve choices' config = resolve choices config := by
  obtain ⟨path, json, file, h, exclude, listRules, verbose⟩ := h
  have hmap := map_bareExtension_strings h
  cases h with
  | nil => rfl
  | cons hext hmore => exact congrArg (Config.mk · _) hmap

theorem audit_of_redotted (h : CommandLine.Redotted choices choices') (fs : FileSystem)
    (path : List Char) : audit fs path choices' = audit fs path choices := by
  have hresolve := resolve_of_redotted h
  have hconfig : configPath choices' = configPath choices := by cases h; rfl
  have hconclude : ∀ issues log, conclude fs choices' issues log = conclude fs choices issues log := by
    intro issues log
    cases h
    rfl
  have hverbose : choices'.verbose = choices.verbose := by cases h; rfl
  rw [audit, audit, hconfig, hverbose]
  simp only [hresolve, hconclude]

end Resolve

end Run

end MarkupAudit
