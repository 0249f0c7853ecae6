import Dogpaddle.Flow.Quiescent
import Dogpaddle.Flow.Resolved
import Dogpaddle.Flow.WriteAhead
import Dogpaddle.Flow.Allowance
import Dogpaddle.Flow.Reopen
import Dogpaddle.EquiJoin.Plain
import Dogpaddle.EquiJoin.Exact
import Dogpaddle.EquiJoin.Reopen
import Dogpaddle.Relation.Order
import Dogpaddle.Store.History
import Dogpaddle.Store.Commit
import Dogpaddle.Store.Partitions
import Dogpaddle.Store.Sessions
import Dogpaddle.Debezium.Language
import Dogpaddle.Debezium.Protocol
import Dogpaddle.Buffered.Exact
import Dogpaddle.Sink.Plan
import Dogpaddle.Joins.Pages
import Dogpaddle.AsOf.Reopen
import Dogpaddle.Distinct.Exact
import Dogpaddle.Canonical.Output
import Dogpaddle.Cdc.Exact
import Dogpaddle.Aggregate.Codec
import Dogpaddle.Aggregate.Extremes
import Dogpaddle.Operation.RunningEventCount
import Dogpaddle.Codec.RoundTrip
import Dogpaddle.Codec.Arrays
