import Amalgam.Main
import Amalgam.Proofs.Source.Closure
import Amalgam.Proofs.Source.Refinement
import Amalgam.Proofs.World.Marks
import Amalgam.World.Description
import Amalgam.Proofs.World.Identity
import Amalgam.Proofs.Blueprint.Claims
import Amalgam.Proofs.Blueprint.Registration
import Amalgam.Proofs.Blueprint.Aliases
import Amalgam.Proofs.Session.Seed
import Amalgam.Proofs.World.Evolution
import Amalgam.Proofs.World.Running
import Amalgam.Proofs.World.Loading
import Amalgam.Proofs.World.Definition
import Amalgam.Proofs.Session.Steps
import Amalgam.Proofs.Blueprint.Built
import Amalgam.Proofs.Source.Prelude
import Amalgam.Proofs.Session.Recovery
import Amalgam.Proofs.Files
import Amalgam.Proofs.Settings
import Amalgam.Proofs.World.Recorded
import Amalgam.Proofs.Session.Registry
import Amalgam.Proofs.World.Importing
import Amalgam.Proofs.Session.Artifact
import Amalgam.Proofs.Session.Failing
import Amalgam.Proofs.World.Homes
import Amalgam.Proofs.Session.Unloading
import Amalgam.Proofs.World.Serving
import Amalgam.Proofs.Blueprint.Following
import Amalgam.Proofs.Blueprint.Offline
import Amalgam.Proofs.World.Spelling
import Amalgam.Proofs.World.Defaults
import Amalgam.Proofs.World.Methods
import Amalgam.Proofs.Session.Origins
import Amalgam.Proofs.Session.Roundtrip
import Amalgam.Proofs.Blueprint.Bases
import Amalgam.Proofs.World.Ancestry
import Amalgam.Proofs.World.Bases
import Amalgam.Proofs.Blueprint.Hooks
import Amalgam.Proofs.Source.Verdicts
import Amalgam.Proofs.Blueprint.Strictness
import Amalgam.Proofs.Blueprint.Repeating
import Amalgam.Proofs.Blueprint.Quiet
import Amalgam.Proofs.Blueprint.Rearranging
import Amalgam.Proofs.Blueprint.Swapping
import Amalgam.Proofs.Session.Associating
import Amalgam.Proofs.Session.Mixing
import Amalgam.Proofs.Blueprint.Finals
import Amalgam.Proofs.World.Discovery
import Amalgam.Proofs.Session.Recording
import Amalgam.Proofs.Session.Records
import Amalgam.Proofs.Blueprint.Dispatch
import Amalgam.Proofs.Blueprint.Locality
import Amalgam.Proofs.Source.Weaving
import Amalgam.Proofs.Source.FirstSeen
import Amalgam.Proofs.Blueprint.Merging
import Amalgam.Proofs.Source.Observing
import Amalgam.Proofs.Session.Standing
import Amalgam.Proofs.Session.Keeping
import Amalgam.Proofs.World.Naming
import Amalgam.Proofs.Session.Filing
import Amalgam.Proofs.World.Recognition
import Amalgam.Proofs.Source.Verbatim
import Amalgam.Proofs.Source.Parts
import Amalgam.Proofs.Source.Spacing
import Amalgam.Proofs.Source.Transcript
import Amalgam.Proofs.Source.Rereading
import Amalgam.Proofs.Source.Placing
import Amalgam.Proofs.Source.Literals
import Amalgam.Proofs.Session.Scoping
import Amalgam.Proofs.Symbol
import Amalgam.Proofs.World.Ordering
import Amalgam.Proofs.Blueprint.Causes
import Amalgam.Proofs.Blueprint.Asking
import Amalgam.Proofs.Source.Writing
import Amalgam.Proofs.Notice
import Amalgam.Proofs.CommandLine
