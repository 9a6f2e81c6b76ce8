import Pollard.Stores.BudgetCapacity
import Pollard.Stores.WindowCapacity
import Pollard.Stores.Settlement
import Pollard.Stores.SqliteSettlement
import Pollard.Stores.Retries
import Pollard.Stores.ArbiterAgreement
import Pollard.Runtime.Policies
import Pollard.Runtime.Exhaustion
import Pollard.Runtime.Budgets
import Pollard.Runtime.Reservations
import Pollard.Runtime.Scopes
import Pollard.Stores.KafkaRefinement
import Pollard.Stores.KafkaRecords
import Pollard.Stores.Verification
import Pollard.Stores.SqliteCollection
import Pollard.Registry.Concealment
import Pollard.Runtime.Refusals
import Pollard.Governance.RoundTrip
import Pollard.Identity.Languages
import Pollard.Stores.SharedSqlite
import Pollard.Rust.Collisions
import Pollard.Rust.KafkaPublishing
import Pollard.Runtime.Resuming
import Pollard.Runtime.KeptChunks
import Pollard.Npm.LedgerRuns
import Pollard.Rust.SharedRuns
import Pollard.Stores.RedisSerial
import Pollard.Runtime.NamedScopes
import Pollard.Revalidation.ResultTexts
import Pollard.Rust.ExactSums
import Pollard.Merge.Keeps
import Pollard.Runtime.AvoidedTotals
import Pollard.Registry.Meaning
import Pollard.Registry.Expansion
import Pollard.Teams.Attribution
import Pollard.Runtime.Golden
import Pollard.Rust.PythonDecimals
import Pollard.Npm.Amounts
import Pollard.Meters.Tokenmaster
import Pollard.Npm.RemoteRuns
import Pollard.Rust.IndexRuns
import Pollard.Rust.CachedSqlite
import Pollard.Runtime.ReplayedPrograms
import Pollard.Runtime.ApprovalRequests
