import UnitDispatch.Bisection
import UnitDispatch.Clock
import UnitDispatch.CommandLine.Options
import UnitDispatch.CommandLine.Session
import UnitDispatch.Decimal.FixedPlaces
import UnitDispatch.Envelope
import UnitDispatch.FileSystem
import UnitDispatch.Fleet
import UnitDispatch.Folder
import UnitDispatch.Generator.Action
import UnitDispatch.Generator.Basic
import UnitDispatch.Generator.Plan
import UnitDispatch.Generator.Trajectory
import UnitDispatch.Leg
import UnitDispatch.Main
import UnitDispatch.Message
import UnitDispatch.Quantity
import UnitDispatch.Quantity.Exact
import UnitDispatch.RampMode
import UnitDispatch.Random.ChaCha
import UnitDispatch.Random.Stream
import UnitDispatch.RegulatedUnit.Action
import UnitDispatch.RegulatedUnit.Basic
import UnitDispatch.Ring
import UnitDispatch.Roster
import UnitDispatch.Scenario.Basic
import UnitDispatch.Scenario.Check
import UnitDispatch.Scenario.OfToml
import UnitDispatch.Schedule
import UnitDispatch.Setpoint
import UnitDispatch.Setting
import UnitDispatch.Signal
import UnitDispatch.Simulation
import UnitDispatch.Telemetry.Csv
import UnitDispatch.Telemetry.Report
import UnitDispatch.Telemetry.Row
import UnitDispatch.Toml.Document
import UnitDispatch.Toml.Lexeme
import UnitDispatch.Toml.Value
import UnitDispatch.Proofs.Exact
import UnitDispatch.Proofs.Schedule
import UnitDispatch.Proofs.Leg
import UnitDispatch.Proofs.Condition
import UnitDispatch.Proofs.Revision
import UnitDispatch.Proofs.Balance
import UnitDispatch.Proofs.Effect
import UnitDispatch.Proofs.History
import UnitDispatch.Proofs.Numeric
import UnitDispatch.Proofs.PowerBalance
import UnitDispatch.Proofs.RampLimits
import UnitDispatch.Proofs.Scheduling
import UnitDispatch.Proofs.LookAhead
import UnitDispatch.Proofs.StepSize
import UnitDispatch.Proofs.Accounting
import UnitDispatch.Proofs.Arrival
import UnitDispatch.Proofs.Participation
import UnitDispatch.Proofs.SimulatedRows
import UnitDispatch.Proofs.Tracking
import UnitDispatch.Proofs.Following
import UnitDispatch.Proofs.LoneSetpoint
import UnitDispatch.Proofs.Isolation
import UnitDispatch.Proofs.Headroom
import UnitDispatch.Proofs.PowerBand
import UnitDispatch.Proofs.Passive
import UnitDispatch.Proofs.Membership
import UnitDispatch.Proofs.StaleTargets
import UnitDispatch.Proofs.DueTargets
import UnitDispatch.Proofs.Homing
import UnitDispatch.Proofs.LegSafety
import UnitDispatch.Proofs.OwnSetpoints
import UnitDispatch.Proofs.Resumption
import UnitDispatch.Proofs.Information
import UnitDispatch.Proofs.DefinedRows
import UnitDispatch.Proofs.Progress
import UnitDispatch.Proofs.Settling
import UnitDispatch.Proofs.ReserveBand
import UnitDispatch.Proofs.Chained
import UnitDispatch.Proofs.Attention
import UnitDispatch.Proofs.QueueOrder
import UnitDispatch.Proofs.Termination
import UnitDispatch.Proofs.CommandInForce
import UnitDispatch.Proofs.Registration
import UnitDispatch.Proofs.ReserveCalls
import UnitDispatch.Proofs.Backlog
import UnitDispatch.Proofs.Sessions
