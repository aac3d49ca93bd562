import Retis.Rust.Core
import Retis.Rust.Str
import Retis.Rust.Num
import Retis.Rust.Utf8
import Retis.Btf
import Retis.Meta.Op
import Retis.Meta.Walk
import Retis.Meta.Parse
import Retis.Meta.Filter
import Retis.Meta.FilterSpec
import Retis.Meta.LoadSpec
import Retis.Meta.WalkSpec
import Retis.Meta.PathSpec
import Retis.Meta.TargetSpec
import Retis.Meta.ParseSpec
import Retis.User.Proc
import Retis.User.NoteSpec
import Retis.User.ProcSpec
import Retis.User.MapsSpec
