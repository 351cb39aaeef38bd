import BuildAnalysis.Collection.Listing
import BuildAnalysis.Configuration.Options
import BuildAnalysis.Digest.Blake3

/-!
# Configurations and their keys

A configuration key stands for build options. It is shown and ordered by the digest of the options'
diagnostic form, of which twelve digits are displayed. A configuration is what analysis sees of a
key.
-/
namespace BuildAnalysis

structure ConfigurationKey where
  options : BuildOptions
  deriving DecidableEq

namespace ConfigurationKey

/-- Sixty-four hexadecimal digits. -/
def digest (k : ConfigurationKey) : String := Blake3.hexDigest k.options.debugText

/-- Whether two keys are equal as far as their digests tell. -/
def same (k l : ConfigurationKey) : Bool := k.digest == l.digest

/-- The part of the digest that is displayed. -/
def shortDigest (k : ConfigurationKey) : String := String.ofList (k.digest.toList.take 12)

instance : ToString ConfigurationKey := ⟨fun k => "cfg:" ++ k.shortDigest⟩
instance : Ord ConfigurationKey := ⟨compareOn digest⟩
instance : Std.TransOrd ConfigurationKey := inferInstanceAs (Std.TransCmp (compareOn digest))

end ConfigurationKey

structure Configuration where
  key : ConfigurationKey
  deriving DecidableEq

namespace Configuration

def options (c : Configuration) : BuildOptions := c.key.options

def ofOptions (o : BuildOptions) : Configuration := ⟨⟨o⟩⟩

instance : ToString Configuration := ⟨fun c => toString c.key⟩

def debugText (c : Configuration) : String :=
  Text.applied "Configuration" [Text.record "ConfigurationData" [("key", toString c.key)]]

/-- The execution constraints that the configuration adds for a target, each once. -/
def executionConstraintsFor (c : Configuration) (label : Label) : List Label :=
  (c.options.platform.extraConstraints.filter fun e => e.pattern.selects label).foldl
    (fun out e => Listing.addAll out e.constraints) []

/-- Whether toolchain resolution is traced for a target. -/
def tracesToolchainsOf (c : Configuration) (label : Label) : Bool :=
  c.options.platform.tracedToolchains.any fun p => p.selects label

end Configuration
end BuildAnalysis
