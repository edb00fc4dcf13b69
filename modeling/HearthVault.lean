import HearthVault.Redact.RedactTheorems
import HearthVault.Store.SealingTheorems
import HearthVault.Store.VaultStore
import HearthVault.Store.MigrateTheorems
import HearthVault.Cli.Dotenv
import HearthVault.Share.Bundle
import HearthVault.Cli.Commands
import HearthVault.Cli.Adopt
import HearthVault.Cli.BodyInvariants
import HearthVault.Cli.TierTheorems
import HearthVault.Store.Runs
import HearthVault.Store.Outcomes
import HearthVault.Store.Session
import HearthVault.Store.SessionTheorems
import HearthVault.Lib.Processes
import HearthVault.Lib.Shell
import HearthVault.Store.Concurrent
import HearthVault.Store.Interference
import HearthVault.Store.ConcurrentTheorems
import HearthVault.Lib.Disturbed
import HearthVault.Cli.Footprints
import HearthVault.Cli.RestoreTheorems
import HearthVault.Cli.DeleteTheorems
import HearthVault.Lib.Base64
import HearthVault.Agent.Cache
import HearthVault.Agent.CacheTheorems
import HearthVault.Lib.Bindings
import HearthVault.Cli.Storing
import HearthVault.Share.ShareTheorems
import HearthVault.Cli.Opening
import HearthVault.Cli.Committing
import HearthVault.Cli.StoringTimes
import HearthVault.Cli.StoringRuns
import HearthVault.Cli.TransferRuns
import HearthVault.Cli.AdoptRuns
import HearthVault.Cli.AllOrNothing
import HearthVault.Cli.RotationTheorems
import HearthVault.Cli.SinkTheorems
import HearthVault.Cli.ExportTheorems
import HearthVault.Cli.ImportTheorems
import HearthVault.Cli.ExecTheorems
import HearthVault.Scan.Scanner
import HearthVault.Cli.AdoptTheorems
import HearthVault.Cli.DotenvTheorems
import HearthVault.Scan.Staged
import HearthVault.Hsm.OsKeyring
import HearthVault.Hsm.SealTheorems
import HearthVault.Cli.InitMachine
import HearthVault.Cli.InitMachineTheorems
import HearthVault.Lib.Greedy
import HearthVault.Redact.CarryTheorems
import HearthVault.Scan.SpanTheorems
import HearthVault.Scan.Walk
import HearthVault.Scan.WalkTheorems
import HearthVault.Cli.QuotingTheorems
import HearthVault.Cli.MigrateCommand
import HearthVault.Cli.EnvNames
import HearthVault.PlatformTheorems
import HearthVault.Cli.ReceiveTheorems
import HearthVault.Cli.AdoptSafety
import HearthVault.Lib.TwoRuns
import HearthVault.Store.Twins
import HearthVault.Cli.TwinRuns
import HearthVault.Cli.TwinCommands
import HearthVault.Cli.OneWayDoor
import HearthVault.Hsm.HexTheorems
import HearthVault.Lib.LittleEndian
import HearthVault.Hsm.Tpm2
import HearthVault.Cli.TokenRequest
import HearthVault.Cli.ProjectPrefix
import HearthVault.Cli.DueDates
import HearthVault.Cli.ListDue
import HearthVault.Lib.Rfc3339
import HearthVault.Lib.Deduction
import HearthVault.Store.Versions
import HearthVault.Store.Theft
import HearthVault.Cli.CredentialTheorems
