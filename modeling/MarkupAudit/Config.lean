import MarkupAudit.Path

/-!
What to scan: the extensions of the files, and the names that are left out wherever they occur in a
path.
-/

namespace MarkupAudit

structure Config where
  /-- Without the leading point. -/
  extensions : List String
  exclude : List String
deriving DecidableEq, Repr

namespace Config

def default : Config := ⟨["tsx", "ts", "jsx", "js"], ["node_modules"]⟩

def bareExtension (ext : String) : String := String.ofList (ext.toList.dropWhile (· == '.'))

def normalized (config : Config) : Config :=
  { config with extensions := config.extensions.map bareExtension }

def withExtensions (extensions : List String) : Config :=
  normalized { default with extensions }

def matchesExtension (config : Config) (path : List Char) : Bool :=
  match Path.extension? path with
  | none => false
  | some ext => config.extensions.any fun e => e.toList == ext

def excludesName (config : Config) (name : List Char) : Bool :=
  config.exclude.any fun e => e.toList == name

def excludesPath (config : Config) (path : List Char) : Bool :=
  (Path.components path).any config.excludesName

def defaultPath : String := ".a11y-audit.toml"

end Config

end MarkupAudit
