import Omg.Arch.PublicationSafety
import Omg.Arch.RequiredNames
import Omg.Arch.TransactionSignatures
import Omg.Aur.BuildLevels
import Omg.Aur.IdentityLines
import Omg.Aur.OutputPlan
import Omg.Aur.Substitution
import Omg.Aur.SymlinkTargets
import Omg.Container.IgnoreRules
import Omg.Daemon.Correlation
import Omg.Daemon.Framing
import Omg.Daemon.Metrics
import Omg.Daemon.PackageSearch
import Omg.Debian.BufferSearch
import Omg.Debian.IndexQuery
import Omg.Debian.PackagesParser
import Omg.Debian.Plan
import Omg.Debian.Removal
import Omg.Debian.UnpackSafety
import Omg.Debian.Verrevcmp
import Omg.Env.Dotenv
import Omg.Env.Fingerprint
import Omg.Env.MiseTasks
import Omg.Env.Redactions
import Omg.Env.WatchEvents
import Omg.History.ManagerSafety
import Omg.Licensing.Clock
import Omg.Net.Fetch
import Omg.Rpm.HeaderRoundTrip
import Omg.Rpm.InventoryCache
import Omg.Runtime.ExtractSafety
import Omg.Runtime.NvmAlias
import Omg.Runtime.VersionsSafety
import Omg.Security.AuditAppend
import Omg.Security.AuditRotation
import Omg.Security.Elevation
import Omg.Security.LicensePrinting
import Omg.Security.NativePolicy
import Omg.Security.Osv
import Omg.Security.Provenance
import Omg.Security.Secrets
import Omg.Security.Transfer
import Omg.SelfUpdate.InstallSafety
