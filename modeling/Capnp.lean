import Capnp.Word
import Capnp.Io
import Capnp.Error
import Capnp.Async.ReadAll
import Capnp.Async.Types
import Capnp.Async.Read
import Capnp.Async.Phases
import Capnp.Async.Table
import Capnp.Async.Resume
import Capnp.Async.Invariant
import Capnp.Async.Frame
import Capnp.Async.Message
import Capnp.Async.Limit
import Capnp.Async.Run
import Capnp.Async.Errors
import Capnp.Text.Utf8
import Capnp.Text.Builder
import Capnp.Text.Reader
