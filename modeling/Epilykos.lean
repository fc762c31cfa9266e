import Epilykos.Lib.Parties
import Epilykos.Lib.Program
import Epilykos.PlatformEnv.Record
import Epilykos.PlatformEnv.Parse
import Epilykos.PlatformEnv.Decimal
import Epilykos.PlatformEnv.Select
import Epilykos.PlatformEnv.Build
import Epilykos.PlatformEnv.Base64
import Epilykos.PlatformEnv.PointerLookup
import Epilykos.PlatformEnv.PointerScalars
import Epilykos.PlatformEnv.PointerParse
import Epilykos.PlatformEnv.PointerBuild
import Epilykos.PlatformEnv.PointerDiff
import Epilykos.PlatformEnv.Commit
import Epilykos.PlatformEnv.Seed
import Epilykos.PlatformEnv.CrashSafety
import Epilykos.PlatformEnv.Acknowledge
import Epilykos.PlatformEnv.Writers
import Epilykos.PlatformEnv.Snapshot
import Epilykos.OsUpdate.State
import Epilykos.OsUpdate.Host
import Epilykos.OsUpdate.Trust
import Epilykos.OsUpdate.Update
import Epilykos.OsUpdate.Activate
import Epilykos.OsUpdate.Worker
import Epilykos.OsUpdate.Requests
import Epilykos.OsUpdate.Loader
import Epilykos.OsUpdate.BootHealth
import Epilykos.OsUpdate.Rules
import Epilykos.OsUpdate.Confirm
import Epilykos.OsUpdate.Promotion
import Epilykos.OsUpdate.Download
import Epilykos.OsUpdate.Resume
import Epilykos.OsUpdate.Activation
import Epilykos.OsUpdate.Reconcile
import Epilykos.OsUpdate.BootScript
import Epilykos.OsUpdate.Calls
import Epilykos.OsUpdate.BootText
import Epilykos.OsUpdate.Accepted
import Epilykos.OsUpdate.Restart
import Epilykos.OsUpdate.Trial
import Epilykos.OsUpdate.Records
import Epilykos.OsUpdate.Refinement
import Epilykos.OsUpdate.Fallback
import Epilykos.OsUpdate.Authorisation
import Epilykos.OsUpdate.OnCard
import Epilykos.OsUpdate.Provenance
import Epilykos.OsUpdate.Slots
import Epilykos.OsUpdate.Launches
import Epilykos.Lib.Text
import Epilykos.Lib.Base64
import Epilykos.Lib.Sha256
import Epilykos.Lib.Crc32
import Epilykos.OsBootstrap.BuildSeed
import Epilykos.OsBootstrap.Budget
import Epilykos.OsBootstrap.CheckCard
import Epilykos.OsBootstrap.InService
import Epilykos.Ssh.Keys
import Epilykos.Ssh.Requests
import Epilykos.Ssh.Serial
import Epilykos.BootHealth.Supervisor
import Epilykos.BootHealth.History
import Epilykos.BootHealth.Confirmation
import Epilykos.AppUpdate.Update
import Epilykos.AppUpdate.Faults
import Epilykos.AppUpdate.Forward
import Epilykos.AppUpdate.AllOrNothing
import Epilykos.AppUpdate.Pruning
import Epilykos.AppUpdate.Launcher
import Epilykos.Wifi.Network
import Epilykos.Wifi.Improv
import Epilykos.Wifi.Packets
import Epilykos.Wifi.Settings
import Epilykos.Wifi.YamlScalar
import Epilykos.Lib.Utf8
import Epilykos.FactoryReset.Once
import Epilykos.FactoryReset.Forget
import Epilykos.Lib.Binary
import Epilykos.SlotLinux.Dtb
import Epilykos.SlotLinux.Module
import Epilykos.Lib.Runs
import Epilykos.Lib.Checked
import Epilykos.Lib.Pointers
import Epilykos.Adoption.Floor
import Epilykos.PlatformEnv.PointerBuild
import Epilykos.OsUpdate.OnCard
import Epilykos.OsUpdate.Provenance
import Epilykos.OsUpdate.Slots
import Epilykos.OsUpdate.Launches
import Epilykos.OsBootstrap.InService
import Epilykos.Lib.Overwrites
import Epilykos.Lib.Regex
import Epilykos.Wifi.BootErrors
import Epilykos.Wifi.ImportCuts
