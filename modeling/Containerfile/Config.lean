import Containerfile.Document.Resolution
import Containerfile.Failure

/-!
# Configuration

A configuration holds build arguments and options for the resolution of documents.

## Main definitions

* `Config` — the configuration.
* `Config.parse`, `Config.resolve` — reading and resolving a document under it.
-/

namespace Containerfile

/-- Build arguments and options for resolution. -/
structure Config where
  buildArgs : Bindings := .empty
  options : ResolutionOptions := {}
deriving DecidableEq, Repr

namespace Config

/-- The configuration with the given arguments, of which each has a value. -/
def ofArgs (args : List (Text × Text)) (options : ResolutionOptions) : Config where
  buildArgs := .ofList (args.map fun p => (p.1, some p.2))
  options := options

/-- The document that a text is. -/
def parse (source : Text) : Except Failure Document :=
  match Document.parse source with
  | .ok d => .ok d
  | .error e => .error (.parse e source)

/-- Resolves a document under the configuration.  Further arguments go before the configured ones,
even those without a value. -/
def resolve (config : Config) (d : Document) (extra : Bindings) : Resolution Document :=
  d.resolve (config.buildArgs.extend extra.entries) config.options

end Config

end Containerfile
